import Contraction.CommandLine.Lists
import Contraction.CommandLine.Request
import Contraction.Dimensions.Layout
import Contraction.Report

/-!
# The command line

Three commands: `explain` reports on a plan, `classify` shows the dimensions of one contraction, and
`subtree` cuts an expression out of a plan. Answers go to the output, and what went wrong goes with
the notices to the errors.
-/

namespace Contraction.CommandLine

/-- What running a command gives: an exit code, the output and the errors. There are no errors to
tell of arguments that were misused. -/
structure Response where
  code : Nat
  output : String
  errors : Option String

/-- What a command comes to, with the notices on the way: its output, or the line that tells why
there is none. -/
structure Result where
  outcome : Except String String
  notices : List Notice

/-- A line that tells of an error. -/
def errorLine (message : String) : String :=
  "error: " ++ message

def refusalMessage : Refusal → String
  | .text error => error.message
  | .setting error => error.message

/-- A workspace with the plan that a text writes, or the line that tells why there is none. -/
def workspaceOf (config : Config) (text : String) (sizes : Table Int) :
    Except Fault (Except String Workspace × List Notice) :=
  let step := ({ config } : Workspace).readText (some text) (sizes.map .int)
  step.outcome.map fun
    | none => (.ok step.workspace, step.notices)
    | some refusal => (.error (errorLine (refusalMessage refusal)), step.notices)

/-- The report of a workspace, as a document or as a text. -/
def reportText (w : Workspace) (asDocument : Bool) : Except Fault String := do
  let report ← Report.ofWorkspace w
  if asDocument then return report.datum.document
  else
    match report.text w.config.unit with
    | .ok text => return text
    | .error _ => throw (.conversion .outOfRange)

/-- Reports on the plan that a text writes. Settings are looked at first, then the sizes. A setting
that is no number stops the command. -/
def runExplain (text : String) (sizeList : Option String) (settings : Settings)
    (asDocument : Bool) : Except Fault Result :=
  match settings.check with
  | .error (.unusable error) => .ok ⟨.error error.message, []⟩
  | .error fault => .error (.ofSettings fault)
  | .ok config =>
    match sizes (sizeList.getD "") with
    | .error error => .ok ⟨.error error.message, []⟩
    | .ok sizes => do
      match ← workspaceOf config text sizes with
      | (.error line, notices) => return ⟨.error line, notices⟩
      | (.ok w, notices) => return ⟨.ok (← reportText w asDocument), notices⟩

/-- Shows the dimensions of a contraction. -/
def runClassify (node left right : Option String) : Except Fault Result :=
  match node, left, right with
  | some node, some left, some right =>
    let operands : Operands :=
      ⟨(labels node).map some, (labels left).map some, (labels right).map some⟩
    match operands.dimensions with
    | .ok dims => .ok ⟨.ok dims.table, []⟩
    | .error error => .ok ⟨.error (errorLine error.message), []⟩
  | _, _, _ => .error .missingPart

/-- Cuts an expression out of the plan that a text writes. -/
def runSubtree (text : String) (ids : List String) : Except Fault Result := do
  match ← workspaceOf {} text .empty with
  | (.error line, notices) => return ⟨.error line, notices⟩
  | (.ok w, notices) => return ⟨.ok (← w.spannedText ids), notices⟩

def runCommand : Command → Except Fault Result
  | .explain text sizes settings asDocument => runExplain text sizes settings asDocument
  | .classify node left right => runClassify node left right
  | .subtree text ids => runSubtree text ids

/-- The notices as they are shown: all of them on lines of their own with level and channel, or the
texts of the warnings alone. -/
def shownNotices (verbose : Bool) (notices : List Notice) : String :=
  let lines :=
    if verbose then notices.map Notice.line
    else (notices.filter (·.level = .warning)).map Notice.text
  "".intercalate (lines.map (· ++ "\n"))

/-- Runs a command and tells what came of it. -/
def respond (invocation : Invocation) : Except Fault Response :=
  match invocation.command with
  | none => .ok ⟨0, Help.program, some ""⟩
  | some command =>
    (runCommand command).map fun result =>
      let shown := shownNotices invocation.verbose result.notices
      match result.outcome with
      | .ok output => ⟨0, output ++ "\n", some shown⟩
      | .error line => ⟨1, "", some (shown ++ line ++ "\n")⟩

/-- Runs the program on its arguments. -/
def run (texts : List String) : Except Fault Response :=
  match request texts with
  | .help text => .ok ⟨0, text, some ""⟩
  | .misuse => .ok ⟨2, "", none⟩
  | .invoke invocation => respond invocation

end Contraction.CommandLine
