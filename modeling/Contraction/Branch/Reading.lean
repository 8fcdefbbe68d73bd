import Contraction.Branch.Walk
import Contraction.Fault
import Contraction.NodeIds

/-!
# Branches and expressions

An expression becomes a branch by numbering its nodes, children before their parent; `expression`
goes back and forgets what the nodes carry besides their labels. `restrict` is the expression that
remains of a branch when only some nodes are kept. Neither goes through where an operand or a label
is missing. `ofText` goes from a text to the branch that it writes, with ids from a source that
others may use too.
-/

namespace Contraction

/-- Why a branch has no expression. -/
inductive Unwritten where
  /-- There is no node, or a node has a right child alone. -/
  | missingOperand
  /-- A label is missing. -/
  | missingLabel
deriving DecidableEq, Repr

/-- The labels of a node, if none is missing. -/
def Entry.names (e : Entry) : Except Unwritten (List String) :=
  e.labels.mapM fun
    | some name => .ok name
    | none => .error .missingLabel

namespace Branch

/-- A node that may be removed, if there is one. -/
def markDeletable : Branch → Branch :=
  mapTop Entry.mark

/-- The branch of an expression: its nodes get ids in post-order. A permutation and the tensor it
permutes may both be removed. -/
def ofExpression (ids : NodeIds) : Expression → Branch × NodeIds
  | .leaf labels =>
    let (id, ids) := ids.issue
    (node { id, labels := labels.map some } absent absent, ids)
  | .permutation operand labels =>
    let (operand, ids) := ofExpression ids operand
    let (id, ids) := ids.issue
    (node (Entry.mark { id, labels := labels.map some }) operand.markDeletable absent, ids)
  | .contraction left right labels =>
    let (left, ids) := ofExpression ids left
    let (right, ids) := ofExpression ids right
    let (id, ids) := ids.issue
    (node { id, labels := labels.map some } left right, ids)

/-- The branch of an expression, if all its ids can be written, and the source after them. -/
def numbered? (ids : NodeIds) (e : Expression) : Option (Branch × NodeIds) :=
  let (b, after) := ofExpression ids e
  if after.areWritable then some (b, after) else none

/-- The expression of a branch. -/
def expression : Branch → Except Unwritten Expression
  | absent => .error .missingOperand
  | node e absent absent => e.names.map .leaf
  | node e l absent => do
    let operand ← l.expression
    return .permutation operand (← e.names)
  | node e l r => do
    let left ← l.expression
    let right ← r.expression
    return .contraction left right (← e.names)

/-- The expression of the nodes with the given ids that hang together with the topmost one. A node
whose children are not kept stands as a leaf, one that keeps a single child as its permutation. -/
def restrict (selected : List String) : Branch → Except Unwritten (Option Expression)
  | absent => .ok none
  | node e l r =>
    if selected.contains e.id then do
      let left ← l.restrict selected
      let right ← r.restrict selected
      let names ← e.names
      match left, right with
      | none, none => return some (.leaf names)
      | some operand, none | none, some operand => return some (.permutation operand names)
      | some left, some right => return some (.contraction left right names)
    else .ok none

/-- The expression spanned by the nodes with the given ids: it begins at the first of them. -/
def spanned (b : Branch) (selected : List String) : Except Unwritten (Option Expression) :=
  match b.preorder.find? fun n => n.id?.any selected.contains with
  | none => .ok none
  | some n => n.restrict selected

/-- The branch that a text writes, and the source of ids after it. A text is read to its end before
the first id is issued, so one that writes no branch leaves the source where it was. Ids are issued
up to the first that is too long to be written, and this one counts as issued. -/
def ofText (ids : NodeIds) (text : Option String) : Except Fault Branch × NodeIds :=
  match Expression.read text with
  | .error error => (.error (.text error), ids)
  | .ok e =>
    match numbered? ids e with
    | some (b, after) => (.ok b, after)
    | none =>
      (.error (.conversion .unwritable), ⟨max ids.next (Nat.pow 10 Text.digitLimit) + 1⟩)

end Branch

end Contraction
