import Contraction.CommandLine.Arguments
import Contraction.CommandLine.Help
import Contraction.Measurement.Settings
import Contraction.Number.Literal

/-!
# Requests

What the arguments of the program ask for: a command with its arguments, help, or nothing that can
be made sense of.
-/

namespace Contraction.CommandLine

/-- A command with its arguments. -/
inductive Command where
  | explain (expression : String) (sizes : Option String) (settings : Settings)
      (asDocument : Bool)
  | classify (node left right : Option String)
  | subtree (expression : String) (ids : List String)

/-- What is asked for: a command or none, and whether all notices are to be shown. -/
structure Invocation where
  verbose : Bool
  command : Option Command

/-- What the arguments come to. -/
inductive Request where
  | invoke (invocation : Invocation)
  | help (text : String)
  | misuse

def helpOption : OptionForm := { names := ["-h", "--help"] }

def explainForm : CommandForm :=
  { options := [
      helpOption,
      { names := ["--sizes"], value := some fun _ => true },
      { names := ["--element-bytes"], value := some fun text => (Number.integer? text).isSome },
      { names := ["--unit"], value := some fun text => (SizeUnit.ofName? text).isSome },
      { names := ["--json"] }]
    slots := [.one] }

def classifyForm : CommandForm :=
  { options := [helpOption], slots := [.one, .one, .one] }

def subtreeForm : CommandForm :=
  { options := [helpOption], slots := [.one, .many] }

/-- The options in front of a command. -/
def mainForm : CommandForm :=
  { options := [helpOption, { names := ["--verbose"] }], slots := [] }

/-- The first word of a command. -/
def expressionOf (c : Collected) : String :=
  (c.word? 0).getD ""

/-- What an option gives: the default if it is not used, and no items if no value is left to it. -/
def givenBy (c : Collected) (name : String) (default : Datum) (read : String → Datum) : Datum :=
  match c.value? name with
  | none => default
  | some none => .list []
  | some (some text) => read text

/-- The integer that a text writes, as a value. -/
def integerOf (text : String) : Datum :=
  ((Number.integer? text).map Datum.int).getD .null

def settingsOf (c : Collected) : Settings :=
  let default : Settings := {}
  { elementBytes := givenBy c "--element-bytes" default.elementBytes integerOf
    unit := givenBy c "--unit" default.unit .text }

def explainOf (c : Collected) : Command :=
  .explain (expressionOf c) (c.value? "--sizes").join (settingsOf c) (c.has "--json")

def classifyOf (c : Collected) : Command :=
  .classify (c.word? 0) (c.word? 1) (c.word? 2)

def subtreeOf (c : Collected) : Command :=
  .subtree (expressionOf c) (c.wordsOf 1)

/-- Reads the arguments of a command. -/
def requestWith (form : CommandForm) (help : String) (make : Collected → Command) (verbose : Bool)
    (texts : List String) : Request :=
  match form.read texts with
  | .done c => .invoke ⟨verbose, some (make c)⟩
  | .help => .help help
  | .misuse => .misuse

/-- Reads a command and its arguments. -/
def requestFor (name : String) (verbose : Bool) (texts : List String) : Request :=
  match name with
  | "explain" => requestWith explainForm Help.explain explainOf verbose texts
  | "classify" => requestWith classifyForm Help.classify classifyOf verbose texts
  | "subtree" => requestWith subtreeForm Help.subtree subtreeOf verbose texts
  | _ => .misuse

/-- Reads the options in front of a command, then the command. An unknown option there is found only
when the command has been read. -/
def requestFrom (verbose extra : Bool) : List Argument → List String → Request
  | .option name none :: arguments, _ :: texts =>
    if isHelp name then .help Help.program else requestFrom true extra arguments texts
  | .option name (some value) :: _, _ =>
    if repeatsHelp name value then .help Help.program else .misuse
  | .unknown :: arguments, _ :: texts => requestFrom verbose true arguments texts
  | .word name :: _, _ :: texts =>
    match requestFor name verbose texts with
    | .invoke invocation => if extra then .misuse else .invoke invocation
    | request => request
  | .dashes :: _, _ => .misuse
  | _, _ => if extra then .misuse else .invoke ⟨verbose, none⟩

/-- What the arguments of the program ask for. -/
def request (texts : List String) : Request :=
  match Argument.ofTexts? mainForm.names texts with
  | none => .misuse
  | some arguments => requestFrom false false arguments texts

end Contraction.CommandLine
