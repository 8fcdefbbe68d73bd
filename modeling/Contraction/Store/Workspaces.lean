import Contraction.Store.Trees
import Contraction.Workspace

/-!
# Workspaces on a store

A workspace whose plan is a tree in a store, which it shares with all who have been handed a tree.
Sizes and measures are written to the records of the current tree. An edit is made on a copy, which
takes the place of the current tree when the edit applies; an answer hands out the tree that is then
current.
-/

namespace Contraction

/-- The current tree with its totals, and the configuration. -/
structure StoredWorkspace where
  config : Config := {}
  tree : Ref
  totals : Totals := {}
  store : Store

/-- What a step leaves, as `Step` has it. There is no step where a reference leads nowhere. -/
structure StoredStep (α : Type) where
  workspace : StoredWorkspace
  outcome : Except Fault α
  notices : List Notice

/-- What an edit leads to: the error, if it is refused, and the tree that is then current. -/
structure StoredEdited where
  error : Option RefusedEdit
  tree : Ref

def StoredEdited.applied (e : StoredEdited) : Bool :=
  e.error.isNone

namespace StoredWorkspace

/-- The plan that the current tree holds. -/
def plan? (w : StoredWorkspace) : Option Plan :=
  w.store.planAt w.tree

/-- The workspace with the plan as a value. -/
def view? (w : StoredWorkspace) : Option Workspace :=
  w.plan?.map fun plan => { config := w.config, plan, totals := w.totals }

/-- Measures the current tree anew. -/
def measured (w : StoredWorkspace) : Option (StoredStep Unit) := do
  let (m, store) ← Stored.measure w.tree w.config w.store
  let w := { w with store }
  match m.outcome with
  | .error fault => return ⟨w, .error fault, m.notices⟩
  | .ok totals =>
    let more := if totals.sound then [] else [.faultyNodes totals.faulty]
    return ⟨{ w with totals }, .ok (), m.notices ++ more⟩

/-- Replaces the tree by the one that a text writes. -/
def readText (w : StoredWorkspace) (text : Option String) (given : Table Datum) :
    Option (StoredStep (Option Refusal)) := do
  match Plan.ofText text with
  | .error error =>
    return ⟨w, .ok (some (.text error)), error.notices ++ [.unreadText text error]⟩
  | .ok plan =>
    let current ← w.plan?
    let (tree, store) ← Stored.place plan w.store
    let (sized, store) ← Stored.setCompleteSizes tree (current.sizeData.override given)
      (.int w.config.defaultSize) store
    match sized with
    | .error (.setting error) =>
      return ⟨{ w with store }, .ok (some (.setting error)), [.unusableSizes text error]⟩
    | .error fault => return ⟨{ w with store }, .error fault, []⟩
    | .ok () =>
      let step ← { w with tree, store }.measured
      let loaded ← step.workspace.plan?
      match step.outcome, loaded.text with
      | .ok (), .ok written =>
        return ⟨step.workspace, .ok none, step.notices ++ [.loadedText written]⟩
      | .error fault, _ | _, .error fault => return ⟨step.workspace, .error fault, step.notices⟩

/-- Enters sizes into the table of the current tree. -/
def setSizes (w : StoredWorkspace) (given : Table Datum) :
    Option (StoredStep (Option Refusal)) := do
  let (entered, store) ← Stored.setSizes w.tree given w.store
  match entered with
  | .error (.setting error) =>
    return ⟨{ w with store }, .ok (some (.setting error)), [.rejectedSizes given error]⟩
  | .error fault => return ⟨{ w with store }, .error fault, []⟩
  | .ok () =>
    let step ← { w with store }.measured
    return ⟨step.workspace, step.outcome.map fun _ => none, step.notices⟩

/-- Changes settings. A change under the reserved name stops the step. -/
def changeSettings (w : StoredWorkspace) (changes : Table Datum) :
    Option (StoredStep (Option Refusal)) :=
  if (changes.get? Workspace.reservedName).isSome then
    some ⟨w, .error (.unknownSetting Workspace.reservedName), []⟩
  else match ((Settings.ofConfig w.config).change changes.entries).bind Settings.check with
  | .error fault =>
    match Workspace.settingRefusal? fault with
    | none => some ⟨w, .error (.ofSettings fault), []⟩
    | some error => some ⟨w, .ok (some (.setting error)), [.rejectedSettings fault]⟩
  | .ok config => do
    let step ← { w with config }.measured
    return ⟨step.workspace, step.outcome.map fun _ => none, step.notices⟩

/-- Makes an edit on a copy of the tree, and takes the copy if the edit applies. -/
def tryEdit (w : StoredWorkspace) (action : EditAction) (nodeId : Datum)
    (edit : Ref → Stored TreeChange) : Option (StoredStep StoredEdited) := do
  let (candidate, store) ← Stored.clone w.tree w.store
  let (change, store) ← edit candidate store
  match change.outcome with
  | .error fault => return ⟨{ w with store }, .error fault, change.notices⟩
  | .ok false =>
    let error : RefusedEdit := ⟨action, nodeId⟩
    return ⟨{ w with store }, .ok ⟨some error, w.tree⟩, change.notices ++ [.rejectedEdit error]⟩
  | .ok true =>
    let step ← { w with tree := candidate, store }.measured
    return ⟨step.workspace, step.outcome.map fun _ => ⟨none, candidate⟩,
      change.notices ++ step.notices⟩

/-- Makes an edit at a node. A value that is no text is the id of no node. -/
def tryEditAt (w : StoredWorkspace) (action : EditAction) (id : Datum)
    (edit : Ref → String → Stored (Except Fault Bool)) : Option (StoredStep StoredEdited) :=
  w.tryEdit action id fun tree =>
    match id with
    | .text id => do return ⟨← edit tree id, []⟩
    | _ => return ⟨.ok false, []⟩

/-- Exchanges the operands of a node. -/
def swapAt (w : StoredWorkspace) (id : Datum) : Option (StoredStep StoredEdited) :=
  w.tryEditAt .swap id fun tree id => do return .ok (← Stored.swapAt tree id)

/-- Puts a permutation over a node. -/
def wrapAt (w : StoredWorkspace) (id : Datum) : Option (StoredStep StoredEdited) :=
  w.tryEditAt .wrap id Stored.wrapAt

/-- Removes a node that may be removed. -/
def removeAt (w : StoredWorkspace) (id : Datum) : Option (StoredStep StoredEdited) :=
  w.tryEditAt .remove id fun tree id => do return .ok (← Stored.removeAt tree id)

/-- Carries out a patch and gives its new labels a size. -/
def renameTree (config : Config) (input : PatchInput) (tree : Ref) : Stored TreeChange := do
  let change ← Stored.rename tree input
  match change.outcome with
  | .ok true =>
    let sized ← Stored.setCompleteSizes tree .empty (.int config.defaultSize)
    return { change with outcome := sized.map fun _ => true }
  | _ => return change

/-- Gives nodes new labels. -/
def rename (w : StoredWorkspace) (input : PatchInput) : Option (StoredStep StoredEdited) :=
  w.tryEdit .rename (Workspace.patchNode input) (renameTree w.config input)

/-- A workspace with a tree without nodes, made in a store where others may have their trees. -/
def start (store : Store) (config : Config) : StoredWorkspace :=
  let ids := store.size
  let store := store.push (.ids ⟨0⟩)
  { config, tree := store.size, store := store.push (.tree { ids }) }

/-- A workspace that begins with a text, if there is one, or with an empty tree. -/
def new (store : Store) (settings : Settings) (text : Option String) (given : Table Datum) :
    Except Fault (Option (StoredStep (Option Refusal))) :=
  match settings.check with
  | .error fault => .error (.ofSettings fault)
  | .ok config =>
    let w := start store config
    .ok (if (text.getD "").isEmpty then some ⟨w, .ok none, []⟩ else w.readText text given)

end StoredWorkspace

end Contraction
