import Contraction.Plan.Renaming

/-!
# Workspaces

A workspace holds a plan and its measures, and keeps the two together: after every step the measures
are those of the plan. A step that is refused changes nothing. Edits are made on a copy, which takes
the place of the plan when the edit applies; a plan that has been replaced stays as it was.

Plans are values here, and a plan that was current is known by its number. `StoredWorkspace` takes
the same steps where the plan is a tree whose records others may hold, and hands out the tree.
-/

namespace Contraction

/-- Why a workspace refuses a step. -/
inductive Refusal where
  | text (error : Misreading)
  | setting (error : SettingError)

/-- The current plan with its totals, the configuration, and the plans that were current before, the
oldest first. -/
structure Workspace where
  config : Config := {}
  plan : Plan := .empty
  totals : Totals := {}
  replaced : List Plan := []

/-- What a step leaves: the workspace, the answer, and the notices on the way. A step may also stop
without an answer, and then the workspace is as far as the step had come. -/
structure Step (α : Type) where
  workspace : Workspace
  outcome : Except Fault α
  notices : List Notice

/-- What an edit leads to: the error, if it is refused, and the number of the plan that is then
current. -/
structure Edited where
  error : Option RefusedEdit
  planNumber : Nat

def Edited.applied (e : Edited) : Bool :=
  e.error.isNone

namespace Workspace

/-- The plans of a workspace are numbered in the order in which they become current. -/
def planNumber (w : Workspace) : Nat :=
  w.replaced.length

/-- The plan with a number: the current one, or one that was replaced. -/
def planAt (w : Workspace) (number : Nat) : Plan :=
  w.replaced[number]?.getD w.plan

/-- The written form of the current plan. -/
def text (w : Workspace) : Except Fault String :=
  w.plan.text

/-- Makes another plan the current one. -/
def replacePlan (w : Workspace) (plan : Plan) : Workspace :=
  { w with plan, replaced := w.replaced ++ [w.plan] }

/-- Measures the current plan anew. -/
def measured (w : Workspace) : Step Unit :=
  let m := w.plan.root.measureUnder w.plan.sizeData w.config
  let w := { w with plan := { w.plan with root := m.branch } }
  match m.outcome with
  | .error fault => ⟨w, .error fault, m.notices⟩
  | .ok totals =>
    let more := if totals.sound then [] else [.faultyNodes totals.faulty]
    ⟨{ w with totals }, .ok (), m.notices ++ more⟩

/-- A plan with a size for each of its labels: the one given, else the one that the current plan has
for it, else the default. -/
def sized (w : Workspace) (plan : Plan) (given : Table Datum) : Except Fault Plan :=
  plan.setCompleteSizes (w.plan.sizeData.override given) (.int w.config.defaultSize)

/-- Replaces the plan by the one that a text writes. -/
def readText (w : Workspace) (text : Option String) (given : Table Datum) : Step (Option Refusal) :=
  match Plan.ofText text with
  | .error error =>
    ⟨w, .ok (some (.text error)), error.notices ++ [.unreadText text error]⟩
  | .ok plan =>
    match w.sized plan given with
    | .error (.setting error) =>
      ⟨w, .ok (some (.setting error)), [.unusableSizes text error]⟩
    | .error fault => ⟨w, .error fault, []⟩
    | .ok plan =>
      let step := (w.replacePlan plan).measured
      match step.outcome, step.workspace.text with
      | .ok (), .ok written =>
        ⟨step.workspace, .ok none, step.notices ++ [.loadedText written]⟩
      | .error fault, _ | _, .error fault => ⟨step.workspace, .error fault, step.notices⟩

/-- Enters sizes into the table of the current plan. -/
def setSizes (w : Workspace) (given : Table Datum) : Step (Option Refusal) :=
  match w.plan.setSizes given with
  | .error (.setting error) => ⟨w, .ok (some (.setting error)), [.rejectedSizes given error]⟩
  | .error fault => ⟨w, .error fault, []⟩
  | .ok plan =>
    let step := { w with plan }.measured
    ⟨step.workspace, step.outcome.map fun _ => none, step.notices⟩

/-- The refusal of settings that cannot be used. A number outside the range of numbers is not
refused, it stops the step. -/
def settingRefusal? : SettingsFault → Option SettingError
  | .unknown name => some (.invalidSetting (unknownSettingMessage name))
  | .conversion .outOfRange => none
  | .conversion fault => some (.invalidSetting fault.message)
  | .unusable error => some error

/-- The name that stands for the workspace itself, which no setting can have. -/
def reservedName : String := "self"

/-- Changes settings. A change under the reserved name stops the step. -/
def changeSettings (w : Workspace) (changes : Table Datum) : Step (Option Refusal) :=
  if (changes.get? reservedName).isSome then ⟨w, .error (.unknownSetting reservedName), []⟩
  else match ((Settings.ofConfig w.config).change changes.entries).bind Settings.check with
  | .error fault =>
    match settingRefusal? fault with
    | none => ⟨w, .error (.ofSettings fault), []⟩
    | some error => ⟨w, .ok (some (.setting error)), [.rejectedSettings fault]⟩
  | .ok config =>
    let step := { w with config }.measured
    ⟨step.workspace, step.outcome.map fun _ => none, step.notices⟩

/-- Makes an edit on a copy of the plan, and takes the copy if the edit applies. -/
def tryEdit (w : Workspace) (action : EditAction) (nodeId : Datum) (edit : Plan → Change) :
    Step Edited :=
  let change := edit w.plan.withoutMeasures
  match change.outcome with
  | .error fault => ⟨w, .error fault, change.notices⟩
  | .ok none =>
    let error : RefusedEdit := ⟨action, nodeId⟩
    ⟨w, .ok ⟨some error, w.planNumber⟩, change.notices ++ [.rejectedEdit error]⟩
  | .ok (some plan) =>
    let step := (w.replacePlan plan).measured
    ⟨step.workspace, step.outcome.map fun _ => ⟨none, step.workspace.planNumber⟩,
      change.notices ++ step.notices⟩

/-- Makes an edit at a node. A value that is no text is the id of no node. -/
def tryEditAt (w : Workspace) (action : EditAction) (id : Datum)
    (edit : Plan → String → Except Fault (Option Plan)) : Step Edited :=
  w.tryEdit action id fun plan =>
    match id with
    | .text id => ⟨edit plan id, []⟩
    | _ => ⟨.ok none, []⟩

/-- Exchanges the operands of a node. -/
def swapAt (w : Workspace) (id : Datum) : Step Edited :=
  w.tryEditAt .swap id fun plan id => .ok (plan.swapAt id)

/-- Puts a permutation over a node. -/
def wrapAt (w : Workspace) (id : Datum) : Step Edited :=
  w.tryEditAt .wrap id Plan.wrapAt

/-- Removes a node that may be removed. -/
def removeAt (w : Workspace) (id : Datum) : Step Edited :=
  w.tryEditAt .remove id fun plan id => .ok (plan.removeAt id)

/-- What a patch names as its node. -/
def patchNode : PatchInput → Datum
  | .patch patch => (patch.root.map NewLabels.nodeId).getD .null
  | .data (.mapping entries) => (Table.find? "id" entries).getD .null
  | .data _ => .null

/-- Carries out a patch and gives its new labels a size. -/
def renamePlan (config : Config) (input : PatchInput) (plan : Plan) : Change :=
  let change := plan.rename input
  match change.outcome with
  | .ok (some plan) =>
    ⟨(plan.setCompleteSizes .empty (.int config.defaultSize)).map some, change.notices⟩
  | _ => change

/-- Gives nodes new labels. -/
def rename (w : Workspace) (input : PatchInput) : Step Edited :=
  w.tryEdit .rename (patchNode input) (renamePlan w.config input)

/-- The dimensions of a node. -/
def dimensionsAt (w : Workspace) (id : Datum) : Except Unclassified Dimensions × List Notice :=
  match id.text?.bind w.plan.root.find? with
  | none => (.error ⟨.nodeNotFound id.plainText, none⟩, [])
  | some n =>
    if n.isContraction then
      match n.operands.dimensions with
      | .ok dims => (.ok dims, [])
      | .error error => (.error error, [.unclassifiedNode id.plainText error])
    else (.error ⟨.notContraction id.plainText, none⟩, [])

/-- The written form of the nodes with the given ids. -/
def spannedText (w : Workspace) (selected : List String) : Except Fault String :=
  w.plan.spannedText selected

/-- A workspace that begins with a text, if there is one, or with an empty plan. -/
def new (settings : Settings) (text : Option String) (given : Table Datum) :
    Except Fault (Step (Option Refusal)) :=
  match settings.check with
  | .error fault => .error (.ofSettings fault)
  | .ok config =>
    let w : Workspace := { config }
    .ok (if (text.getD "").isEmpty then ⟨w, .ok none, []⟩ else w.readText text given)

end Workspace

end Contraction
