import Contraction.Proofs.Branch.Removal
import Contraction.Proofs.Branch.Shape

/-!
# A permutation put over a node and taken away

A node that has been wrapped comes back in two ways: the permutation that was put over it is removed
and leaves the new node, which holds the same (`removeAt_outer`), or the new node is removed and
what was below it goes back (`removeAt_inner`). Either way one node is replaced at the place at
which it was wrapped, and all the rest of the branch stays as it is.

For this the replacements at one place are put together: one after the other
(`Replaced.comp`), and one within another (`Replaced.within`).
-/

namespace Contraction.Branch

variable {b b' b'' c l r n m t u : Branch} {e f : Entry}

/-! ## Replacements put together -/

namespace Replaced

theorem ids_subset (h : Replaced n m b b') : m.ids ⊆ b'.ids := by
  obtain ⟨before, after, -, hb'⟩ := h.entries
  rw [ids_eq_entries, ids_eq_entries, hb', List.map_append, List.map_append]
  exact fun x hx => List.mem_append_left _ (List.mem_append_right _ hx)

theorem mem (h : Replaced n m b b') (hm : m ∈ m.preorder) : m ∈ b'.preorder := by
  induction h with
  | here => exact hm
  | left h ih => simp [ih]
  | right h ih => simp [ih]

/-- What is replaced within a node is replaced within all that holds the node. -/
theorem within (h : Replaced n m b b') (ht : Replaced t u n m) : Replaced t u b b' := by
  induction h with
  | here => exact ht
  | left h ih => exact .left ih
  | right h ih => exact .right ih

theorem symm (h : Replaced n m b b') : Replaced m n b' b := by
  induction h with
  | here => exact .here
  | left h ih => exact .left ih
  | right h ih => exact .right ih

/-- Where ids differ, a node that has been put into a place is there alone, and so what then takes
its place comes to where it was put. -/
theorem comp (h : Replaced n (node e l r) b b') (h' : Replaced (node e l r) c b' b'')
    (hnodup : b'.ids.Nodup) : Replaced n c b b'' := by
  have hid : e.id ∈ (node e l r).ids := by simp
  induction h generalizing b'' with
  | here =>
    rw [ids_node, List.nodup_cons, List.mem_append, not_or] at hnodup
    cases h' with
    | here => exact .here
    | left h' => exact absurd (h'.symm.ids_subset hid) hnodup.1.1
    | right h' => exact absurd (h'.symm.ids_subset hid) hnodup.1.2
  | left h ih =>
    rw [ids_node, List.nodup_cons, List.mem_append, not_or, List.nodup_append] at hnodup
    cases h' with
    | here => exact absurd (h.ids_subset hid) hnodup.1.1
    | left h' => exact .left (ih h' hnodup.2.1)
    | right h' =>
      exact absurd rfl (hnodup.2.2.2 e.id (h.ids_subset hid) e.id (h'.symm.ids_subset hid))
  | right h ih =>
    rw [ids_node, List.nodup_cons, List.mem_append, not_or, List.nodup_append] at hnodup
    cases h' with
    | here => exact absurd (h.ids_subset hid) hnodup.1.2
    | left h' =>
      exact absurd rfl (hnodup.2.2.2 e.id (h'.symm.ids_subset hid) e.id (h.ids_subset hid))
    | right h' => exact .right (ih h' hnodup.2.2.1)

/-- A node is replaced at the top or within its parent. -/
theorem top_or_parent (h : Replaced t u b b') : (b = t ∧ b' = u) ∨
    (∃ e r, Replaced (node e t r) (node e u r) b b') ∨
      ∃ e l, Replaced (node e l t) (node e l u) b b' := by
  induction h with
  | here => exact Or.inl ⟨rfl, rfl⟩
  | @left e l l' r h ih =>
    rcases ih with ⟨rfl, rfl⟩ | ⟨f, s, hs⟩ | ⟨f, s, hs⟩
    · exact Or.inr (Or.inl ⟨e, r, .here⟩)
    · exact Or.inr (Or.inl ⟨f, s, .left hs⟩)
    · exact Or.inr (Or.inr ⟨f, s, .left hs⟩)
  | @right e l r r' h ih =>
    rcases ih with ⟨rfl, rfl⟩ | ⟨f, s, hs⟩ | ⟨f, s, hs⟩
    · exact Or.inr (Or.inr ⟨e, l, .here⟩)
    · exact Or.inr (Or.inl ⟨f, s, .right hs⟩)
    · exact Or.inr (Or.inr ⟨f, s, .right hs⟩)

end Replaced

/-! ## The two removals -/

/-- A permutation that has been put over a node leaves this node, marked or not. -/
theorem removeAt_outer (h : Replaced t (node f (node e l r) absent) b b')
    (hnodup : b'.ids.Nodup) (hleft : b'.LeftFirst) (hdel : f.isDeletable = true) :
    ∃ b'' mark, b'.removeAt f.id = some b'' ∧
      Replaced t (node { e with deletable := mark } l r) b b'' := by
  have hid : (node f (node e l r) absent).hasId f.id = true := hasId_node.mpr rfl
  have hmay : (node f (node e l r) absent).isDeletable = true := hdel
  have hperm : (node f (node e l r) absent).isPermutation = true := rfl
  have hne : node f (node e l r) absent ≠ absent := nofun
  rcases h.top_or_parent with ⟨rfl, rfl⟩ | ⟨g, s, hp⟩ | ⟨g, s, hp⟩
  · refine ⟨node e l r, e.deletable, ?_, .here⟩
    rw [removeAt_top hid, hmay, hperm]
    rfl
  · have hmem := hp.mem (by simp)
    have hlower := (leftFirst_node.mp (hleft.of_mem hmem)).2.1
    have hchild : node f (node e l r) absent ∈ (node g (node f (node e l r) absent) s).children :=
      mem_children.mpr ⟨hne, Or.inl rfl⟩
    have hdrop : dropChild? f.id (node g (node f (node e l r) absent) s) =
        some (node g (node e.unmark l r) s) := by
      rw [dropChild?_left hid hlower, hmay, hperm]
      rfl
    obtain ⟨b'', hb'', hreplaced⟩ := (removeAt_of_child hnodup hmem hchild hid).2 _ hdrop
    exact ⟨b'', _, hb'', (hp.comp hreplaced hnodup).within (.left .here)⟩
  · have hmem := hp.mem (by simp)
    have hdistinct := nodup_ids_of_mem hnodup hmem
    rw [ids_node, List.nodup_cons, List.nodup_append] at hdistinct
    have hother : ¬s.hasId f.id = true := fun hs =>
      hdistinct.2.2.2 f.id (mem_ids_of_hasId hs) f.id (by simp) rfl
    have hsibling : s ≠ absent := fun habsent =>
      hne ((leftFirst_node.mp (hleft.of_mem hmem)).1 habsent)
    have hchild : node f (node e l r) absent ∈ (node g s (node f (node e l r) absent)).children :=
      mem_children.mpr ⟨hne, Or.inr rfl⟩
    have hdrop : dropChild? f.id (node g s (node f (node e l r) absent)) =
        some (node g s (node e.unmark l r)) := by
      rw [dropChild?_right hother hsibling, hmay, hperm]
      rfl
    obtain ⟨b'', hb'', hreplaced⟩ := (removeAt_of_child hnodup hmem hchild hid).2 _ hdrop
    exact ⟨b'', _, hb'', (hp.comp hreplaced hnodup).within (.right .here)⟩

/-- A node below a permutation goes, and the permutation gets what was below it: the child of
another permutation, which is then no longer marked, or else both children. -/
theorem removeAt_inner (h : Replaced t (node f (node e l r) absent) b b')
    (hnodup : b'.ids.Nodup) (hleft : b'.LeftFirst) (hdel : e.isDeletable = true) :
    ∃ b'' mark child, b'.removeAt e.id = some b'' ∧ (child = l ∨ child = l.unmarkDeletable) ∧
      Replaced t (node { f with deletable := mark } child r) b b'' := by
  have hid : (node e l r).hasId e.id = true := hasId_node.mpr rfl
  have hmay : (node e l r).isDeletable = true := hdel
  have hmem := h.mem (by simp)
  have hlower := (leftFirst_node.mp (hleft.of_mem hmem)).2.1
  have hchild : node e l r ∈ (node f (node e l r) absent).children :=
    mem_children.mpr ⟨nofun, Or.inl rfl⟩
  have hsome := (removeAt_of_child hnodup hmem hchild hid).2
  by_cases hperm : (node e l r).isPermutation = true
  · obtain ⟨_, _, _, _, heq⟩ := isPermutation_iff.mp hperm
    obtain ⟨-, -, rfl⟩ := node.inj heq
    have hdrop : dropChild? e.id (node f (node e l absent) absent) =
        some (node f l.unmarkDeletable absent) := by
      rw [dropChild?_left hid hlower, hmay, hperm]
      rfl
    obtain ⟨b'', hb'', hreplaced⟩ := hsome _ hdrop
    exact ⟨b'', f.deletable, _, hb'', Or.inr rfl, h.comp hreplaced hnodup⟩
  · rw [Bool.not_eq_true] at hperm
    have hdrop : dropChild? e.id (node f (node e l r) absent) = some (node f.unmark l r) := by
      rw [dropChild?_left hid hlower, hmay, hperm]
      rfl
    obtain ⟨b'', hb'', hreplaced⟩ := hsome _ hdrop
    exact ⟨b'', _, l, hb'', Or.inl rfl, h.comp hreplaced hnodup⟩

end Contraction.Branch
