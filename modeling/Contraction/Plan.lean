import Contraction.Branch.Edit
import Contraction.Branch.Reading
import Contraction.Measurement

/-!
# Plans

A contraction plan: a tree of tensors with the sizes of its labels and the source of its ids. The
table of sizes may know more labels than the tree has, and fewer.
-/

namespace Contraction

/-- The tensors, the sizes of their labels, and the source of new ids. -/
structure Plan where
  root : Branch := .absent
  sizes : Table Int := .empty
  ids : NodeIds := ⟨0⟩
deriving Inhabited

namespace Plan

/-- A plan without nodes. -/
def empty : Plan := {}

/-- The plan that a text writes. -/
def ofText (text : Option String) : Except Misreading Plan :=
  match Expression.read text with
  | .error error => .error error
  | .ok e =>
    let (root, ids) := Branch.ofExpression ⟨0⟩ e
    .ok { root, ids }

/-- The plan that a text writes; no text and the empty one write the plan without nodes. -/
def ofTextOrEmpty (text : Option String) : Except Misreading Plan :=
  if (text.getD "").isEmpty then .ok empty else ofText text

/-- Replaces the nodes. New ids come after those of the nodes, up to one with more digits than are
read, of which a fault tells. -/
def withRoot (p : Plan) (root : Branch) : Plan × Option Fault :=
  ({ p with root, ids := p.ids.avoidAll root.ids },
    (root.ids.findSome? NodeIds.excess?).map fun digits => .conversion (.tooManyDigits digits))

/-- The labels, in the order in which they first come in pre-order. -/
def labels (p : Plan) : List Label :=
  (p.root.preorder.flatMap Branch.labels).eraseDups

/-- The size that the table has for a label. -/
def sizeOf? (p : Plan) (label : Label) : Option Int :=
  label.bind p.sizes.get?

/-- The sizes of some labels. -/
def sizesOf (p : Plan) (labels : List Label) : List Int :=
  labels.map fun label => (p.sizeOf? label).getD defaultIndexSize

/-- Gives every node the sizes of its labels. -/
def spreadSizes (p : Plan) : Plan :=
  let spread (e : Entry) : Entry := { e with sizes := some ((p.sizesOf e.labels).map .int) }
  { p with root := p.root.mapEntries spread }

/-- The size that a label is given: a number that is equal to a positive integer. What is refused is
shown in the refusal; that an integer of more than 4300 digits cannot be shown is left out. -/
def sizeFrom (label : String) (given : Datum) : Except Fault Int :=
  match given.toInteger with
  | .error .outOfRange => .error (.conversion .outOfRange)
  | .error _ => .error (.setting (.indexSize label given))
  | .ok n =>
    if n ≤ 0 || !given.equalsInt n then .error (.setting (.indexSize label given)) else .ok n

/-- The integers that are entered for the sizes that are given, if none of these is refused. -/
def checkedSizes (given : Table Datum) : Except Fault (List (String × Int)) :=
  given.entries.mapM fun (label, size) => do return (label, ← sizeFrom label size)

/-- Enters sizes into the table. If one of them is refused, nothing changes. -/
def setSizes (p : Plan) (given : Table Datum) : Except Fault Plan := do
  let checked ← checkedSizes given
  return spreadSizes { p with sizes := p.sizes.insertAll checked }

/-- A size for a label: the one given, else that of the table, else the one for all others. -/
def sizeFor (p : Plan) (given : Table Datum) (default : Datum) (label : Label) :
    Except ConversionFault Int :=
  match label.bind given.get? with
  | some size => size.toInteger
  | none =>
    match p.sizeOf? label with
    | some size => .ok size
    | none => default.toInteger

/-- A size for every label of the plan and for no other. -/
def completeSizes (p : Plan) (given : Table Datum) (default : Datum) :
    Except Fault (List (Label × Int)) :=
  (p.labels.mapM fun label => (p.sizeFor given default label).map (label, ·)).mapError .conversion

/-- Enters a size for every label of the plan into the table. -/
def setCompleteSizes (p : Plan) (given : Table Datum) (default : Datum) : Except Fault Plan := do
  let sizes ← p.completeSizes given default
  p.setSizes (.ofPairs (sizes.map fun (label, size) => (label.plainText, .int size)))

/-- The fault of a branch that has no expression. -/
def unwrittenFault : Unwritten → Fault
  | .missingOperand => .missingPart
  | .missingLabel => .notText

/-- The written form of a branch of a plan. -/
def textOf (b : Branch) : Except Fault String :=
  match b with
  | .absent => .ok ""
  | b => (b.expression.map Expression.text).mapError unwrittenFault

/-- The written form of the plan. -/
def text (p : Plan) : Except Fault String :=
  textOf p.root

/-- The ids among some values. Only a text is one, and what holds items cannot be looked up. -/
def idsAmong (given : List Datum) : Except Fault (List String) :=
  if given.any Datum.holdsItems then .error .notLookedUp else .ok (given.filterMap Datum.text?)

/-- The written form of the nodes with the given ids, from the first of them on. -/
def spannedText (p : Plan) (selected : List String) : Except Fault String :=
  let written (e : Option Expression) : String := (e.map Expression.text).getD ""
  ((p.root.spanned selected).map written).mapError unwrittenFault

/-- A copy with all measures unset. -/
def withoutMeasures (p : Plan) : Plan :=
  { p with root := p.root.withoutMeasures }

/-- Exchanges the children of a node. -/
def swapAt (p : Plan) (id : String) : Option Plan :=
  (p.root.swapAt id).map fun root => { p with root }

/-- Puts a permutation over a node. The new node needs an id that can be written. -/
def wrapAt (p : Plan) (id : String) : Except Fault (Option Plan) :=
  let (newId, ids) := p.ids.issue
  match p.root.wrapAt id newId with
  | none => .ok none
  | some root =>
    if ids.areWritable then .ok (some { p with root, ids }) else .error (.conversion .unwritable)

/-- Removes a node that may be removed. -/
def removeAt (p : Plan) (id : String) : Option Plan :=
  (p.root.removeAt id).map fun root => { p with root }

/-- The table of sizes as data. -/
def sizeData (p : Plan) : Table Datum :=
  p.sizes.map .int

end Plan

end Contraction
