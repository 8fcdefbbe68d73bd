import Contraction.Plan

/-!
# Renaming

New labels for a contraction and its operands. A `Patch` says which nodes get which labels; it may
come as data, out of which `Patch.ofDatum` takes what it can use, and `Plan.rename` carries it out.
-/

namespace Contraction

/-- New labels for the node with an id. A value that is no text is the id of no node. -/
structure NewLabels where
  nodeId : Datum
  labels : List String
deriving Repr

/-- New labels for a node and its two operands, each where there are any. -/
structure Patch where
  root : Option NewLabels := none
  left : Option NewLabels := none
  right : Option NewLabels := none
deriving Repr

namespace NewLabels

/-- The labels in a value: the characters of a text, the items of a list, the keys of a mapping. -/
def labelsIn : Datum → Except Fault (List String)
  | .text s => .ok (s.toList.map Char.toString)
  | .list items => .ok (items.map Datum.plainText)
  | .mapping entries => .ok (entries.map (·.1))
  | _ => .error .notLabels

/-- The new labels in a value, with what there is to tell about it. Nothing holds none, and a
mapping that lacks the id or the labels is passed over. -/
def ofDatum (item : Datum) : Except Fault (Option NewLabels) × List Notice :=
  if item.isVoid then (.ok none, [])
  else
    match item with
    | .mapping entries =>
      let id := (Table.find? "id" entries).getD .null
      match (Table.find? "value" entries).getD .null with
      | .null => (.ok none, [.incompleteUpdate item])
      | value =>
        if id.isVoid then (.ok none, [.incompleteUpdate item])
        else ((labelsIn value).map fun labels => some ⟨.text id.plainText, labels⟩, [])
    | _ => (.error .missingPart, [])

end NewLabels

namespace Patch

/-- The new labels, in the order in which they are given to the nodes. -/
def toList (patch : Patch) : List NewLabels :=
  patch.root.toList ++ patch.left.toList ++ patch.right.toList

/-- The patch in a value: what it says of the node itself, and of the operands on either side. -/
def ofDatum (data : Datum) : Except Fault Patch × List Notice :=
  match NewLabels.ofDatum data with
  | (.error fault, notices) => (.error fault, notices)
  | (.ok root, first) =>
    match data with
    | .mapping entries =>
      let side (name : String) := NewLabels.ofDatum ((Table.find? name entries).getD .null)
      match side "left" with
      | (.error fault, notices) => (.error fault, first ++ notices)
      | (.ok left, second) =>
        match side "right" with
        | (.error fault, notices) => (.error fault, first ++ second ++ notices)
        | (.ok right, third) => (.ok { root, left, right }, first ++ second ++ third)
    | _ => (.error .missingPart, first)

end Patch

/-- A patch as a caller gives it. -/
inductive PatchInput where
  | data (value : Datum)
  | patch (patch : Patch)

/-- What an edit of a plan comes to: the changed plan, if the edit applies, and what there is to
tell about it. -/
structure Change where
  outcome : Except Fault (Option Plan)
  notices : List Notice

/-- Gives nodes new labels one after the other. There is a result if any of the nodes is there. -/
def Branch.renameAll (b : Branch) : List NewLabels → Option Branch × List Notice
  | [] => (none, [])
  | new :: rest =>
    match new.nodeId.text?.bind (b.renameAt · new.labels) with
    | some changed =>
      let (last, notices) := changed.renameAll rest
      (some (last.getD changed), notices)
    | none =>
      let (last, notices) := b.renameAll rest
      (last, .skippedUpdate new.nodeId.plainText :: notices)

namespace Plan

/-- Carries out a patch. A node must keep at least one label. The measures of a changed plan are
unset. -/
def applyPatch (p : Plan) (patch : Patch) : Change :=
  let emptied := patch.toList.filter (·.labels.isEmpty)
  if emptied.isEmpty then
    let (root, notices) := p.root.renameAll patch.toList
    ⟨.ok (root.map fun root => spreadSizes { p with root := root.withoutMeasures }), notices⟩
  else
    match emptied.mapM (·.nodeId.text?) with
    | none => ⟨.error .notText, []⟩
    | some ids => ⟨.ok none, [.emptiedNodes ids]⟩

/-- Carries out a patch as it is given. -/
def rename (p : Plan) (input : PatchInput) : Change :=
  match input with
  | .data .null => ⟨.ok none, [.missingPatch]⟩
  | .patch patch => p.applyPatch patch
  | .data value =>
    match Patch.ofDatum value with
    | (.error fault, notices) => ⟨.error fault, notices⟩
    | (.ok patch, notices) =>
      let change := p.applyPatch patch
      { change with notices := notices ++ change.notices }

end Plan

end Contraction
