import Contraction.Branch

/-!
# Walks

The two orders in which the nodes of a branch are visited. Each is a loop over a stack of what is
still to be visited, so that the depth of a tree does not matter; `preorder_node` and
`postorder_node` say that they are the orders defined by recursion. Both loops end because a visit
takes a node off the stack, which is weighed by the nodes in it.
-/

namespace Contraction.Branch

/-- Visits the branches of a stack from the top, a node before its children. -/
def walkDown : List Branch → List Branch
  | [] => []
  | absent :: stack => walkDown stack
  | node e l r :: stack => node e l r :: walkDown (l :: r :: stack)
termination_by stack => stack.foldr (fun b weight => 2 * b.size + 1 + weight) 0
decreasing_by all_goals simp [size]; try omega

/-- The nodes, each with what hangs below it: a node first, then its left side, then its right. -/
def preorder (b : Branch) : List Branch :=
  walkDown [b]

/-- Visits the branches of a stack from the top, a node after its children. A branch whose children
have been put on the stack is marked. -/
def walkUp : List (Branch × Bool) → List Branch
  | [] => []
  | (b, true) :: stack => b :: walkUp stack
  | (absent, false) :: stack => walkUp stack
  | (node e l r, false) :: stack =>
    walkUp ((l, false) :: (r, false) :: (node e l r, true) :: stack)
termination_by stack =>
  stack.foldr (fun p weight => (if p.2 then 1 else 3 * p.1.size + 1) + weight) 0
decreasing_by all_goals simp [size]; try omega

/-- The nodes, each with what hangs below it: the left side first, then the right, then the node. -/
def postorder (b : Branch) : List Branch :=
  walkUp [(b, false)]

theorem walkDown_cons (b : Branch) (stack : List Branch) :
    walkDown (b :: stack) = preorder b ++ walkDown stack := by
  induction b generalizing stack with
  | absent => rw [preorder, walkDown, walkDown, walkDown, List.nil_append]
  | node e l r ihl ihr =>
    rw [preorder, walkDown, walkDown, ihl (r :: stack), ihr stack, ihl [r], ihr []]
    simp [walkDown]

@[simp] theorem preorder_absent : preorder absent = [] := by
  simp [preorder, walkDown]

@[simp] theorem preorder_node (e : Entry) (l r : Branch) :
    preorder (node e l r) = node e l r :: (preorder l ++ preorder r) := by
  rw [preorder, walkDown, walkDown_cons l, walkDown_cons r, walkDown, List.append_nil]

theorem walkUp_cons (b : Branch) (stack : List (Branch × Bool)) :
    walkUp ((b, false) :: stack) = postorder b ++ walkUp stack := by
  induction b generalizing stack with
  | absent => simp [postorder, walkUp]
  | node e l r ihl ihr =>
    rw [postorder, walkUp, walkUp, ihl, ihr, ihl, ihr [(node e l r, true)]]
    simp [walkUp]

@[simp] theorem postorder_absent : postorder absent = [] := by
  simp [postorder, walkUp]

@[simp] theorem postorder_node (e : Entry) (l r : Branch) :
    postorder (node e l r) = postorder l ++ postorder r ++ [node e l r] := by
  rw [postorder, walkUp, walkUp_cons l, walkUp_cons r]
  simp [walkUp]

/-- The ids in pre-order. -/
def ids (b : Branch) : List String :=
  b.preorder.filterMap id?

/-- The first node in pre-order with an id. -/
def find? (b : Branch) (id : String) : Option Branch :=
  b.preorder.find? (·.hasId id)

/-- The first node in pre-order that has a child with an id. -/
def parentOf? (b : Branch) (id : String) : Option Branch :=
  b.preorder.find? fun n => n.left.hasId id || n.right.hasId id

/-- Changes the first node in pre-order that a condition holds of. -/
def updateFirst? (holds : Branch → Bool) (change : Branch → Branch) : Branch → Option Branch
  | absent => none
  | node e l r =>
    if holds (node e l r) then some (change (node e l r))
    else
      match l.updateFirst? holds change with
      | some l => some (node e l r)
      | none => (r.updateFirst? holds change).map (node e l)

theorem updateFirst?_isSome (holds : Branch → Bool) (change : Branch → Branch) (b : Branch) :
    (b.updateFirst? holds change).isSome = b.preorder.any holds := by
  induction b with
  | absent => simp [updateFirst?]
  | node e l r ihl ihr =>
    rw [preorder_node, List.any_cons, List.any_append, ← ihl, ← ihr, updateFirst?]
    by_cases h : holds (node e l r)
    · simp [h]
    · cases l.updateFirst? holds change <;> simp [h]

end Contraction.Branch
