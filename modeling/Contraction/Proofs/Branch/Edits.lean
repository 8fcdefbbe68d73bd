import Contraction.Branch.Edit
import Contraction.Proofs.Branch.Replacement

/-!
# What edits do to the nodes

Each edit of a branch, opened once: which node it finds and what it puts in its place. From this
follows what becomes of the entries, marks and measures apart (exchanging sides moves them, wrapping
adds one, removing takes some away, renaming changes one), and that no edit leaves a node with a
right child alone.
-/

namespace Contraction.Branch

variable {b b' l r target : Branch} {e : Entry} {id newId : String} {labels : List String}
  {f : Entry → Entry}

@[simp] theorem isAbsent_iff : b.isAbsent = true ↔ b = absent := by
  cases b <;> simp [isAbsent]

/-! ## What an edit finds and puts there -/

theorem swapAt_eq_some (h : b.swapAt id = some b') :
    ∃ e l r, b.find? id = some (node e l r) ∧ r ≠ absent ∧
      Replaced (node e l r) (node e r l) b b' := by
  rw [swapAt] at h
  cases hfind : b.find? id with
  | none => rw [hfind] at h; cases h
  | some n =>
    obtain ⟨e, l, r, rfl, -⟩ := exists_entry_of_find? hfind
    rw [hfind] at h
    dsimp only at h
    split at h
    · cases h
    · next hr =>
      obtain ⟨n, hn, hreplaced⟩ := updateFirst?_eq_some h
      obtain rfl : n = node e l r := Option.some.inj (hn.symm.trans hfind)
      exact ⟨e, l, r, rfl, fun habsent => hr (isAbsent_iff.mpr habsent), hreplaced⟩

theorem wrapAt_eq_some (h : b.wrapAt id newId = some b') :
    ∃ e l r, b.find? id = some (node e l r) ∧
      Replaced (node e l r) (wrap newId (node e l r)) b b' := by
  obtain ⟨n, hfind, hreplaced⟩ := updateFirst?_eq_some h
  obtain ⟨e, l, r, rfl, -⟩ := exists_entry_of_find? hfind
  exact ⟨e, l, r, hfind, hreplaced⟩

/-- A change of the first node with an id applies where there is one. -/
theorem updateFirst?_hasId_isSome {change : Branch → Branch} :
    (b.updateFirst? (·.hasId id) change).isSome = true ↔ id ∈ b.ids := by
  rw [updateFirst?_isSome, List.any_eq_true, ids, List.mem_filterMap]
  exact exists_congr fun n => and_congr_right fun _ => beq_iff_eq

theorem exists_updateFirst? {change : Branch → Branch} (h : b.find? id = some target) :
    ∃ b', b.updateFirst? (·.hasId id) change = some b' := by
  rw [← Option.isSome_iff_exists, updateFirst?_hasId_isSome]
  exact List.mem_filterMap.mpr ⟨target, mem_of_find? h, id?_of_find? h⟩

theorem exists_swapAt (h : b.find? id = some target) (hbinary : target.isContraction) :
    ∃ b', b.swapAt id = some b' := by
  have hright : ¬target.right.isAbsent := by
    intro habsent
    obtain ⟨e, l, r, rfl, -⟩ := exists_entry_of_find? h
    obtain rfl : r = absent := isAbsent_iff.mp habsent
    cases l <;> cases hbinary
  rw [swapAt, h]
  dsimp only
  rw [if_neg hright]
  exact exists_updateFirst? h

theorem renameAt_eq_some (h : b.renameAt id labels = some b') :
    ∃ e l r, b.find? id = some (node e l r) ∧
      Replaced (node e l r) (node { e with labels := labels.map some } l r) b b' := by
  obtain ⟨n, hfind, hreplaced⟩ := updateFirst?_eq_some h
  obtain ⟨e, l, r, rfl, -⟩ := exists_entry_of_find? hfind
  exact ⟨e, l, r, hfind, hreplaced⟩

/-- The three ways in which a child is taken away. -/
inductive Dropped (e : Entry) (l r : Branch) : Branch → Prop where
  /-- An only child with two children leaves them in its place. -/
  | merged {target : Branch} (only : (target = l ∧ r = absent) ∨ (target = r ∧ l = absent)) :
      Dropped e l r (node e.unmark target.left target.right)
  /-- An only child without a left one goes. -/
  | gone (only : r = absent ∨ l = absent) : Dropped e l r (node e.unmark absent absent)
  /-- The left one of two children, or an only child, leaves its own child. -/
  | splicedLeft (child : l.left ≠ absent) : Dropped e l r (node e l.left.unmarkDeletable r)
  /-- The right one of two children leaves its own child. -/
  | splicedRight (child : r.left ≠ absent) : Dropped e l r (node e l r.left.unmarkDeletable)

/-- The child on one side goes with all that it has or leaves its two children, if it is an only
child, or it leaves its own child. -/
theorem dropped_side {sibling spliced : Branch}
    (h : (if !target.isDeletable then none
      else if target.isContraction then
        if sibling.isAbsent then some (node e.unmark target.left target.right) else none
      else if target.left.isAbsent then
        if sibling.isAbsent then some (node e.unmark absent absent) else none
      else some spliced) = some b') :
    (sibling = absent ∧
      (b' = node e.unmark target.left target.right ∨ b' = node e.unmark absent absent)) ∨
      (target.left ≠ absent ∧ b' = spliced) := by
  split at h
  · cases h
  · split at h
    · split at h
      · next hsibling =>
        exact Or.inl ⟨isAbsent_iff.mp hsibling, Or.inl (Option.some.inj h).symm⟩
      · cases h
    · split at h
      · split at h
        · next hsibling =>
          exact Or.inl ⟨isAbsent_iff.mp hsibling, Or.inr (Option.some.inj h).symm⟩
        · cases h
      · next hchild =>
        exact Or.inr ⟨fun habsent => hchild (isAbsent_iff.mpr habsent), (Option.some.inj h).symm⟩

theorem dropped_of_dropChild? (h : dropChild? id (node e l r) = some b') : Dropped e l r b' := by
  rw [dropChild?] at h
  dsimp only at h
  by_cases hside : l.hasId id = true
  · simp only [if_pos hside] at h
    rcases dropped_side h with ⟨hr, rfl | rfl⟩ | ⟨hchild, rfl⟩
    · exact .merged (.inl ⟨rfl, hr⟩)
    · exact .gone (.inl hr)
    · exact .splicedLeft hchild
  · simp only [if_neg hside] at h
    rcases dropped_side h with ⟨hl, rfl | rfl⟩ | ⟨hchild, rfl⟩
    · exact .merged (.inr ⟨rfl, hl⟩)
    · exact .gone (.inr hl)
    · exact .splicedRight hchild

/-- A removal leaves the child of the topmost node, or takes a child away from a node. -/
theorem removeAt_eq_some (h : b.removeAt id = some b') :
    b' = b.left ∨ ∃ e l r c, Dropped e l r c ∧ Replaced (node e l r) c b b' := by
  rw [removeAt] at h
  split at h
  · split at h
    · exact Or.inl (Option.some.inj h).symm
    · cases h
  · right
    cases hparent : b.parentOf? id with
    | none => rw [hparent] at h; cases h
    | some parent =>
      rw [hparent] at h
      dsimp only at h
      cases hdrop : parent.dropChild? id with
      | none => rw [hdrop] at h; cases h
      | some changed =>
        rw [hdrop] at h
        obtain ⟨n, hn, hreplaced⟩ := updateFirst?_eq_some h
        obtain rfl : n = parent := Option.some.inj (hn.symm.trans hparent)
        cases n with
        | absent => cases hdrop
        | node e l r => exact ⟨e, l, r, changed, dropped_of_dropChild? hdrop, hreplaced⟩

/-! ## Entries -/

theorem bareEntries_children_sublist (b : Branch) :
    (b.left.bareEntries ++ b.right.bareEntries).Sublist b.bareEntries := by
  cases b with
  | absent => simp [left, right]
  | node e l r =>
    rw [bareEntries_node]
    exact List.sublist_cons_self ..

theorem bareEntries_left_sublist (b : Branch) : b.left.bareEntries.Sublist b.bareEntries :=
  (List.sublist_append_left ..).trans (bareEntries_children_sublist b)

@[simp] theorem bareEntries_unmarkDeletable (b : Branch) :
    b.unmarkDeletable.bareEntries = b.bareEntries := by
  cases b with
  | absent => rfl
  | node e l r => simp only [unmarkDeletable, mapTop, bareEntries_node]; rfl

theorem swapAt_bareEntries (h : b.swapAt id = some b') : b'.bareEntries.Perm b.bareEntries := by
  obtain ⟨e, l, r, -, -, hreplaced⟩ := swapAt_eq_some h
  obtain ⟨before, after, hb, hb'⟩ := hreplaced.bareEntries
  rw [hb, hb', bareEntries_node, bareEntries_node]
  exact ((List.perm_append_comm.cons _).append_left before).append_right after

/-- The new entry follows the one whose tensor it takes over. -/
theorem wrapAt_bareEntries (h : b.wrapAt id newId = some b') :
    ∃ before after x, b.bareEntries = before ++ [x] ++ after ∧
      b'.bareEntries = before ++ [x, { x with id := newId }] ++ after := by
  obtain ⟨e, l, r, -, hreplaced⟩ := wrapAt_eq_some h
  obtain ⟨before, after, hb, hb'⟩ := hreplaced.bareEntries
  refine ⟨before, l.bareEntries ++ r.bareEntries ++ after, e.bare, ?_, ?_⟩
  · rw [hb, bareEntries_node]
    simp
  · rw [hb', wrap, bareEntries_node, bareEntries_node]
    simp [Entry.bare, Entry.mark]

theorem renameAt_bareEntries (h : b.renameAt id labels = some b') :
    ∃ before after x, b.bareEntries = before ++ [x] ++ after ∧
      b'.bareEntries = before ++ [{ x with labels := labels.map some }] ++ after := by
  obtain ⟨e, l, r, -, hreplaced⟩ := renameAt_eq_some h
  obtain ⟨before, after, hb, hb'⟩ := hreplaced.bareEntries
  refine ⟨before, l.bareEntries ++ r.bareEntries ++ after, e.bare, ?_, ?_⟩
  · rw [hb, bareEntries_node]
    simp
  · rw [hb', bareEntries_node]
    simp [Entry.bare]

theorem Dropped.bareEntries_sublist {c : Branch} (h : Dropped e l r c) :
    c.bareEntries.Sublist (node e l r).bareEntries := by
  have hbare : e.unmark.bare = e.bare := rfl
  cases h with
  | @merged target only =>
    rw [bareEntries_node, bareEntries_node, hbare]
    refine List.Sublist.cons_cons _ ((bareEntries_children_sublist target).trans ?_)
    rcases only with ⟨rfl, -⟩ | ⟨rfl, -⟩
    · exact List.sublist_append_left ..
    · exact List.sublist_append_right ..
  | gone only =>
    rw [bareEntries_node, bareEntries_node, hbare, bareEntries_absent]
    exact List.Sublist.cons_cons _ (List.nil_sublist _)
  | splicedLeft child =>
    rw [bareEntries_node, bareEntries_node, bareEntries_unmarkDeletable]
    exact List.Sublist.cons_cons _ ((bareEntries_left_sublist l).append_right _)
  | splicedRight child =>
    rw [bareEntries_node, bareEntries_node, bareEntries_unmarkDeletable]
    exact List.Sublist.cons_cons _ ((bareEntries_left_sublist r).append_left _)

theorem removeAt_bareEntries (h : b.removeAt id = some b') :
    b'.bareEntries.Sublist b.bareEntries := by
  rcases removeAt_eq_some h with rfl | ⟨e, l, r, c, hdrop, hreplaced⟩
  · exact bareEntries_left_sublist b
  · obtain ⟨before, after, hb, hb'⟩ := hreplaced.bareEntries
    rw [hb, hb']
    exact (hdrop.bareEntries_sublist.append_left before).append_right after

theorem ids_mapEntries (hf : ∀ e, (f e).id = e.id) (b : Branch) : (b.mapEntries f).ids = b.ids := by
  induction b with
  | absent => rfl
  | node e l r ihl ihr => rw [mapEntries, ids_node, ids_node, hf, ihl, ihr]

/-! ## No right child alone -/

/-- No node has a right child alone. -/
def LeftFirst (b : Branch) : Prop :=
  ∀ n ∈ b.preorder, n.left = absent → n.right = absent

theorem leftFirst_absent : LeftFirst absent := by
  simp [LeftFirst]

theorem leftFirst_node :
    (node e l r).LeftFirst ↔ (l = absent → r = absent) ∧ l.LeftFirst ∧ r.LeftFirst := by
  simp only [LeftFirst, preorder_node, List.forall_mem_cons, List.forall_mem_append, left, right]

theorem LeftFirst.left (h : b.LeftFirst) : b.left.LeftFirst := by
  cases b with
  | absent => exact leftFirst_absent
  | node e l r => exact (leftFirst_node.mp h).2.1

theorem LeftFirst.right (h : b.LeftFirst) : b.right.LeftFirst := by
  cases b with
  | absent => exact leftFirst_absent
  | node e l r => exact (leftFirst_node.mp h).2.2

theorem leftFirst_mapTop : (b.mapTop f).LeftFirst ↔ b.LeftFirst := by
  cases b with
  | absent => rfl
  | node e l r => rw [mapTop, leftFirst_node, leftFirst_node]

theorem mapEntries_eq_absent : b.mapEntries f = absent ↔ b = absent := by
  cases b <;> simp [mapEntries]

theorem leftFirst_mapEntries : (b.mapEntries f).LeftFirst ↔ b.LeftFirst := by
  induction b with
  | absent => rfl
  | node e l r ihl ihr =>
    rw [mapEntries, leftFirst_node, leftFirst_node, ihl, ihr, mapEntries_eq_absent,
      mapEntries_eq_absent]

theorem leftFirst_congr (h : b'.withoutMeasures = b.withoutMeasures) :
    b'.LeftFirst ↔ b.LeftFirst := by
  rw [← leftFirst_mapEntries (f := Entry.withoutMeasures),
    ← leftFirst_mapEntries (b := b) (f := Entry.withoutMeasures)]
  show b'.withoutMeasures.LeftFirst ↔ b.withoutMeasures.LeftFirst
  rw [h]

/-- A node put in the place of another keeps this up, if there is one and it does so itself. -/
theorem Replaced.leftFirst {n m : Branch} (h : Replaced n m b b') (hn : n ≠ absent)
    (hm : m ≠ absent) (hb : b.LeftFirst) (hnm : n.LeftFirst → m.LeftFirst) : b'.LeftFirst := by
  induction h with
  | here => exact hnm hb
  | left h ih =>
    obtain ⟨htop, hl, hr⟩ := leftFirst_node.mp hb
    exact leftFirst_node.mpr ⟨fun habsent => absurd habsent (h.ne_absent hm), ih hl, hr⟩
  | right h ih =>
    obtain ⟨htop, hl, hr⟩ := leftFirst_node.mp hb
    refine leftFirst_node.mpr ⟨fun habsent => ?_, hl, ih hr⟩
    -- without a left child there would be none on the right in which something was replaced
    rw [htop habsent] at h
    cases h with
    | here => exact absurd rfl hn

theorem swapAt_leftFirst (h : b.swapAt id = some b') (hb : b.LeftFirst) : b'.LeftFirst := by
  obtain ⟨e, l, r, -, hr, hreplaced⟩ := swapAt_eq_some h
  refine hreplaced.leftFirst (by simp) (by simp) hb fun hn => ?_
  obtain ⟨-, hleft, hright⟩ := leftFirst_node.mp hn
  exact leftFirst_node.mpr ⟨fun habsent => absurd habsent hr, hright, hleft⟩

theorem wrapAt_leftFirst (h : b.wrapAt id newId = some b') (hb : b.LeftFirst) :
    b'.LeftFirst := by
  obtain ⟨e, l, r, -, hreplaced⟩ := wrapAt_eq_some h
  refine hreplaced.leftFirst (by simp) (by simp [wrap]) hb fun hn => ?_
  rw [wrap, leftFirst_node]
  exact ⟨fun _ => rfl, leftFirst_node.mpr (leftFirst_node.mp hn), leftFirst_absent⟩

theorem renameAt_leftFirst (h : b.renameAt id labels = some b') (hb : b.LeftFirst) :
    b'.LeftFirst := by
  obtain ⟨e, l, r, -, hreplaced⟩ := renameAt_eq_some h
  refine hreplaced.leftFirst (by simp) (by simp) hb fun hn => ?_
  exact leftFirst_node.mpr (leftFirst_node.mp hn)

theorem Dropped.leftFirst {c : Branch} (h : Dropped e l r c) (hn : (node e l r).LeftFirst) :
    c.LeftFirst := by
  obtain ⟨htop, hl, hr⟩ := leftFirst_node.mp hn
  cases h with
  | @merged target only =>
    have htarget : target.LeftFirst := by
      rcases only with ⟨rfl, -⟩ | ⟨rfl, -⟩
      · exact hl
      · exact hr
    refine leftFirst_node.mpr ⟨?_, htarget.left, htarget.right⟩
    cases target with
    | absent => exact fun _ => rfl
    | node te tl tr => exact (leftFirst_node.mp htarget).1
  | gone only => exact leftFirst_node.mpr ⟨fun _ => rfl, leftFirst_absent, leftFirst_absent⟩
  | splicedLeft child =>
    refine leftFirst_node.mpr ⟨fun habsent => absurd ?_ child, leftFirst_mapTop.mpr hl.left, hr⟩
    cases hc : l.left with
    | absent => rfl
    | node ce cl cr => rw [hc] at habsent; cases habsent
  | splicedRight child =>
    refine leftFirst_node.mpr ⟨fun habsent => ?_, hl, leftFirst_mapTop.mpr hr.left⟩
    -- a right child that has a child of its own has a left sibling
    rw [htop habsent] at child
    exact absurd rfl child

theorem removeAt_leftFirst (h : b.removeAt id = some b') (hb : b.LeftFirst) : b'.LeftFirst := by
  rcases removeAt_eq_some h with rfl | ⟨e, l, r, c, hdrop, hreplaced⟩
  · exact hb.left
  · have hc : c ≠ absent := by
      cases hdrop <;> exact fun hc => by cases hc
    exact hreplaced.leftFirst (by simp) hc hb hdrop.leftFirst

end Contraction.Branch
