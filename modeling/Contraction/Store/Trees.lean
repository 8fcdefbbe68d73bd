import Contraction.Plan.Renaming
import Contraction.Store.Links

/-!
# Trees in a store

The edits of a plan, and what else is done to it, as work on the records of a tree: a copy makes
records anew, all else writes to those that are there. The labels and sizes that a step needs, and
what it answers, are the same as for the plan that the tree holds.
-/

namespace Contraction

/-- What an edit of a tree comes to: whether it has been applied, and what there is to tell. -/
structure TreeChange where
  outcome : Except Fault Bool
  notices : List Notice := []

namespace Stored

/-! ## Making trees -/

/-- Makes a node, with a record of its own for the measures. -/
def make (e : Entry) (left right : Option Ref) : Stored Ref := do
  let measures ← alloc (.measures e.measures)
  alloc (.node (e.record left right measures))

/-- Makes the nodes of a branch. -/
def build : Branch → Stored (Option Ref)
  | .absent => return none
  | .node e l r => do
    let left ← build l
    let right ← build r
    return some (← make e left right)

/-- Makes a tree that holds a plan. -/
def place (p : Plan) : Stored Ref := do
  let ids ← alloc (.ids p.ids)
  let root ← build p.root
  alloc (.tree { ids, sizes := p.sizes, root })

/-- Makes the nodes anew that links lead to, with unset measures. -/
def copy : Links → Stored (Option Ref)
  | .absent => return none
  | .node top _ l r => do
    let n ← node top
    let left ← copy l
    let right ← copy r
    return some (← make (n.entry .unset) left right)

/-- Makes a copy of a tree, with a source of ids of its own and unset measures. -/
def clone (t : Ref) : Stored Ref := do
  let record ← tree t
  let source ← ids record.ids
  let ids ← alloc (.ids source)
  let links ← linksOf t
  let root ← copy links
  alloc (.tree { record with ids, root })

/-! ## Sizes -/

/-- Gives the nodes that links lead to the sizes of their labels. -/
def spread (sizes : Table Int) : Links → Stored Unit
  | .absent => return ()
  | .node top _ l r => do
    let n ← node top
    write top (.node (n.sizedBy sizes))
    spread sizes l
    spread sizes r

/-- Gives every node of a tree the sizes of its labels. -/
def spreadSizes (t : Ref) : Stored Unit := do
  let record ← tree t
  let links ← linksOf t
  spread record.sizes links

/-- Enters sizes into the table of a tree. If one of them is refused, nothing changes. -/
def setSizes (t : Ref) (given : Table Datum) : Stored (Except Fault Unit) := do
  match Plan.checkedSizes given with
  | .error fault => return .error fault
  | .ok checked =>
    let record ← tree t
    write t (.tree { record with sizes := record.sizes.insertAll checked })
    spreadSizes t
    return .ok ()

/-- Enters a size for every label of a tree into its table. -/
def setCompleteSizes (t : Ref) (given : Table Datum) (default : Datum) :
    Stored (Except Fault Unit) := do
  let p ← look (·.planAt t)
  match p.completeSizes given default with
  | .error fault => return .error fault
  | .ok sizes =>
    setSizes t (.ofPairs (sizes.map fun (label, size) => (label.plainText, .int size)))

/-! ## Measures -/

/-- Writes the measures of a branch to the records of the nodes that links lead to. -/
def writeMeasures : Links → Branch → Stored Unit
  | .node _ m l r, .node e left right => do
    writeMeasures l left
    writeMeasures r right
    write m (.measures e.measures)
  | _, _ => return ()

/-- Sets all measures of a tree under a configuration. A measurement that has to stop has written
what it had set up to then. -/
def measure (t : Ref) (config : Config) : Stored Measurement := do
  let p ← look (·.planAt t)
  let links ← linksOf t
  let m := p.root.measureUnder p.sizeData config
  writeMeasures links m.branch
  return m

/-! ## Edits -/

/-- Exchanges the children of a node. -/
def swapAt (t : Ref) (id : String) : Stored Bool := do
  match ← firstNode t (Store.isNode id) with
  | none => return false
  | some top =>
    let n ← node top
    if n.right.isNone then return false
    else
      write top (.node { n with left := n.right, right := n.left })
      return true

/-- Puts a permutation over a node: what the node holds goes into a new node below it. -/
def wrapAt (t : Ref) (id : String) : Stored (Except Fault Bool) := do
  match ← firstNode t (Store.isNode id) with
  | none => return .ok false
  | some top =>
    let n ← node top
    let record ← tree t
    let source ← ids record.ids
    let (newId, after) := source.issue
    write record.ids (.ids after)
    if after.areWritable then
      let carried := { n.entry .unset with id := newId }.mark
      let inner ← make carried n.left n.right
      write top (.node { n with left := some inner, right := none }.mark)
      return .ok true
    else return .error (.conversion .unwritable)

/-- Takes a node away from its parent, on one side of which it is. A node that has a child of its
own leaves it in its place. Where the node takes its whole side with it, or would leave two in its
place, it must be the only child, and then the parent may no longer be removed. -/
def dropTarget (parent : Ref) (p : NodeRecord) (onLeft : Bool) (n : NodeRecord) : Stored Bool := do
  let alone := (p.side !onLeft).isNone
  if !n.isDeletable then return false
  else if n.left.isSome && n.right.isSome then
    if alone then
      write parent (.node { p with left := n.left, right := n.right }.unmark)
      return true
    else return false
  else
    match n.left with
    | some adopted =>
      write adopted (.node (← node adopted).unmark)
      write parent (.node (p.setSide onLeft (some adopted)))
      return true
    | none =>
      if alone then
        write parent (.node (p.setSide onLeft none).unmark)
        return true
      else return false

/-- Takes the child with an id away from its parent; the left child is looked at first. -/
def dropChild (parent : Ref) (id : String) : Stored Bool := do
  let p ← node parent
  let onLeft ← look fun s => some (s.hasId p.left id)
  match p.side onLeft with
  | none => return false
  | some target => dropTarget parent p onLeft (← node target)

/-- Removes the topmost node of a tree, if it is a permutation that may be removed. -/
def removeTop (t : Ref) : Stored Bool := do
  let record ← tree t
  match record.root with
  | none => return false
  | some top =>
    let n ← node top
    if n.isDeletable && (n.left.isSome && n.right.isNone) then
      write t (.tree { record with root := n.left })
      return true
    else return false

/-- Removes a node below the topmost one, if it may be removed. -/
def removeBelow (t : Ref) (id : String) : Stored Bool := do
  match ← firstNode t (Store.isParent id) with
  | none => return false
  | some parent => dropChild parent id

/-- Removes the node with an id, if it may be removed. At the top only a permutation is. -/
def removeAt (t : Ref) (id : String) : Stored Bool := do
  let record ← tree t
  if ← look fun s => some (s.hasId record.root id) then removeTop t else removeBelow t id

/-- Gives a node new labels. Tells whether the node is there. -/
def renameNode (t : Ref) (new : NewLabels) : Stored Bool := do
  match new.nodeId.text? with
  | none => return false
  | some id =>
    match ← firstNode t (Store.isNode id) with
    | none => return false
    | some top =>
      let n ← node top
      write top (.node { n with labels := new.labels.map some })
      return true

/-- Gives nodes new labels one after the other. Tells whether any of the nodes is there. -/
def renameAll (t : Ref) : List NewLabels → Stored (Bool × List Notice)
  | [] => return (false, [])
  | new :: rest => do
    let found ← renameNode t new
    let (changed, notices) ← renameAll t rest
    if found then return (true, notices)
    else return (changed, .skippedUpdate new.nodeId.plainText :: notices)

/-- Makes the nodes of a tree anew, with unset measures. -/
def renew (t : Ref) : Stored Unit := do
  let root ← copy (← linksOf t)
  let record ← tree t
  write t (.tree { record with root })

/-- Carries out a patch. A node must keep at least one label. The nodes of a changed tree are made
anew. -/
def applyPatch (t : Ref) (patch : Patch) : Stored TreeChange := do
  let emptied := patch.toList.filter (·.labels.isEmpty)
  if emptied.isEmpty then
    let (changed, notices) ← renameAll t patch.toList
    if changed then
      renew t
      spreadSizes t
      return ⟨.ok true, notices⟩
    else return ⟨.ok false, notices⟩
  else
    match emptied.mapM (·.nodeId.text?) with
    | none => return ⟨.error .notText, []⟩
    | some ids => return ⟨.ok false, [.emptiedNodes ids]⟩

/-- Carries out a patch as it is given. -/
def rename (t : Ref) (input : PatchInput) : Stored TreeChange := do
  match input with
  | .data .null => return ⟨.ok false, [.missingPatch]⟩
  | .patch patch => applyPatch t patch
  | .data value =>
    match Patch.ofDatum value with
    | (.error fault, notices) => return ⟨.error fault, notices⟩
    | (.ok patch, notices) =>
      let change ← applyPatch t patch
      return { change with notices := notices ++ change.notices }

end Stored

end Contraction
