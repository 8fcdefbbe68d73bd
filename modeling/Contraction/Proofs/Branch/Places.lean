import Contraction.Proofs.Branch.Replacement
import Mathlib.Data.List.Nodup

/-!
# The places of the nodes

A branch may hold equal nodes, so a node is told by the way to it: which side to take at each node
from the topmost one on (`follow`). `waysDown` and `waysUp` list these ways by recursion, the way to
a node before those to the nodes below it and after them. Both list the way to every node once, and
what stands at the ends of the ways are the nodes in the order in which a walk visits them
(`eachOnce_preorder`, `eachOnce_postorder`).
-/

namespace Contraction

/-- A step from a node to what hangs below it. -/
inductive Side where
  | left
  | right
deriving DecidableEq, Repr

namespace Branch

variable {b l r : Branch} {e : Entry} {side : Side} {way upper lower : List Side}
  {ways : List (List Side)}

/-- What is on a side of a node. -/
def child (b : Branch) : Side → Branch
  | .left => b.left
  | .right => b.right

/-- What stands at the end of a way. -/
def follow (b : Branch) (way : List Side) : Branch :=
  way.foldl child b

/-- The nodes by recursion: a node, then its left side, then its right. -/
def nodesDown : Branch → List Branch
  | absent => []
  | node e l r => node e l r :: (l.nodesDown ++ r.nodesDown)

/-- The nodes by recursion: the left side of a node, then its right, then the node. -/
def nodesUp : Branch → List Branch
  | absent => []
  | node e l r => l.nodesUp ++ r.nodesUp ++ [node e l r]

/-- The ways to the nodes, in the order of `nodesDown`. -/
def waysDown : Branch → List (List Side)
  | absent => []
  | node _ l r => [] :: (l.waysDown.map (.left :: ·) ++ r.waysDown.map (.right :: ·))

/-- The ways to the nodes, in the order of `nodesUp`. -/
def waysUp : Branch → List (List Side)
  | absent => []
  | node _ l r => l.waysUp.map (.left :: ·) ++ r.waysUp.map (.right :: ·) ++ [[]]

/-- Ways that lead to the nodes of a branch, each to another one and to all of them, with the nodes
at their ends. -/
structure EachOnce (b : Branch) (ways : List (List Side)) (nodes : List Branch) : Prop where
  nodes_eq : nodes = ways.map b.follow
  nodup : ways.Nodup
  mem_iff : ∀ way, way ∈ ways ↔ b.follow way ≠ absent

/-! ## The ways that lead to a node -/

theorem follow_absent (way : List Side) : absent.follow way = absent := by
  induction way with
  | nil => rfl
  | cons side way ih =>
    cases side with
    | left => exact ih
    | right => exact ih

theorem cons_mem_waysDown : side :: way ∈ b.waysDown ↔ way ∈ (b.child side).waysDown := by
  cases b with
  | absent => cases side <;> simp [waysDown, child, left, right]
  | node e l r => cases side <;> simp [waysDown, child, left, right]

theorem mem_waysDown : way ∈ b.waysDown ↔ b.follow way ≠ absent := by
  induction way generalizing b with
  | nil => cases b <;> simp [waysDown, follow]
  | cons side way ih => exact cons_mem_waysDown.trans ih

theorem nodup_waysDown (b : Branch) : b.waysDown.Nodup := by
  induction b with
  | absent => exact List.nodup_nil
  | node e l r ihl ihr =>
    have hsides : ∀ x ∈ l.waysDown.map (Side.left :: ·), ∀ y ∈ r.waysDown.map (Side.right :: ·),
        x ≠ y := by
      intro x hx y hy
      obtain ⟨_, -, rfl⟩ := List.mem_map.mp hx
      obtain ⟨_, -, rfl⟩ := List.mem_map.mp hy
      exact nofun
    rw [waysDown, List.nodup_cons, List.nodup_append]
    exact ⟨by simp, ihl.map List.cons_injective, ihr.map List.cons_injective, hsides⟩

theorem waysUp_perm_waysDown (b : Branch) : b.waysUp.Perm b.waysDown := by
  induction b with
  | absent => exact .nil
  | node e l r ihl ihr =>
    exact List.perm_append_comm.trans (((ihl.map _).append (ihr.map _)).cons _)

theorem mem_waysUp : way ∈ b.waysUp ↔ b.follow way ≠ absent :=
  (waysUp_perm_waysDown b).mem_iff.trans mem_waysDown

/-! ## The nodes at the ends of the ways -/

theorem preorder_eq_nodesDown (b : Branch) : b.preorder = b.nodesDown := by
  induction b with
  | absent => exact preorder_absent
  | node e l r ihl ihr => rw [preorder_node, nodesDown, ihl, ihr]

theorem postorder_eq_nodesUp (b : Branch) : b.postorder = b.nodesUp := by
  induction b with
  | absent => exact postorder_absent
  | node e l r ihl ihr => rw [postorder_node, nodesUp, ihl, ihr]

theorem nodesDown_eq_map (b : Branch) : b.nodesDown = b.waysDown.map b.follow := by
  induction b with
  | absent => rfl
  | node e l r ihl ihr =>
    rw [nodesDown, waysDown, List.map_cons, List.map_append, List.map_map, List.map_map, ihl, ihr]
    rfl

theorem nodesUp_eq_map (b : Branch) : b.nodesUp = b.waysUp.map b.follow := by
  induction b with
  | absent => rfl
  | node e l r ihl ihr =>
    rw [nodesUp, waysUp, List.map_append, List.map_append, List.map_map, List.map_map, ihl, ihr]
    rfl

theorem eachOnce_preorder (b : Branch) : b.EachOnce b.waysDown b.preorder where
  nodes_eq := (preorder_eq_nodesDown b).trans (nodesDown_eq_map b)
  nodup := nodup_waysDown b
  mem_iff _ := mem_waysDown

theorem eachOnce_postorder (b : Branch) : b.EachOnce b.waysUp b.postorder where
  nodes_eq := (postorder_eq_nodesUp b).trans (nodesUp_eq_map b)
  nodup := (waysUp_perm_waysDown b).nodup_iff.mpr (nodup_waysDown b)
  mem_iff _ := mem_waysUp

/-! ## A node and those below it

The way to a node begins the ways to the nodes below it. -/

theorem map_sublist_waysDown (h : ways.Sublist ((node e l r).child side).waysDown) :
    (ways.map (side :: ·)).Sublist (node e l r).waysDown := by
  cases side with
  | left => exact ((h.map _).trans (List.sublist_append_left _ _)).cons _
  | right => exact ((h.map _).trans (List.sublist_append_right _ _)).cons _

theorem map_sublist_waysUp (h : ways.Sublist ((node e l r).child side).waysUp) :
    (ways.map (side :: ·)).Sublist (node e l r).waysUp := by
  refine List.Sublist.trans ?_ (List.sublist_append_left _ _)
  cases side with
  | left => exact (h.map _).trans (List.sublist_append_left _ _)
  | right => exact (h.map _).trans (List.sublist_append_right _ _)

/-- Down the branch, a node comes before those below it. -/
theorem sublist_waysDown (h : upper <+: lower) (hne : upper ≠ lower)
    (hlower : b.follow lower ≠ absent) : [upper, lower].Sublist b.waysDown := by
  induction upper generalizing b lower with
  | nil =>
    rw [← mem_waysDown] at hlower
    cases b with
    | absent => cases hlower
    | node e l r =>
      -- the empty way comes first, and all others are ways to nodes below
      have hbelow := (List.mem_cons.mp hlower).resolve_left (Ne.symm hne)
      exact (List.singleton_sublist.mpr hbelow).cons_cons []
  | cons side upper ih =>
    obtain ⟨rest, rfl⟩ := h
    cases b with
    | absent => exact absurd (follow_absent _) hlower
    | node e l r =>
      have hrest : upper ≠ upper ++ rest := fun heq => hne (congrArg (List.cons side) heq)
      exact map_sublist_waysDown (ih (List.prefix_append upper rest) hrest hlower)

/-- Up the branch, a node comes after those below it. -/
theorem sublist_waysUp (h : upper <+: lower) (hne : upper ≠ lower)
    (hlower : b.follow lower ≠ absent) : [lower, upper].Sublist b.waysUp := by
  induction upper generalizing b lower with
  | nil =>
    rw [← mem_waysUp] at hlower
    cases b with
    | absent => cases hlower
    | node e l r =>
      have hbelow := (List.mem_append.mp hlower).resolve_right
        fun hself => hne (List.mem_singleton.mp hself).symm
      exact (List.singleton_sublist.mpr hbelow).append (List.Sublist.refl [[]])
  | cons side upper ih =>
    obtain ⟨rest, rfl⟩ := h
    cases b with
    | absent => exact absurd (follow_absent _) hlower
    | node e l r =>
      have hrest : upper ≠ upper ++ rest := fun heq => hne (congrArg (List.cons side) heq)
      exact map_sublist_waysUp (ih (List.prefix_append upper rest) hrest hlower)

end Branch

end Contraction
