import Contraction.Proofs.Branch.Edits

/-!
# What a removal takes away

Where the ids of a branch differ, a node has one parent (`parentOf?_of_mem`), and so what a removal
does is decided by that parent and the child: whether it applies (`removeAt_isSome`), and what is
then listed in pre-order: one entry less, and one mark taken off (`removeAt_child_entries`).
-/

namespace Contraction

/-- Takes the mark off the node with an id. -/
def Entry.unmarkIf (id : Option String) (e : Entry) : Entry :=
  if some e.id = id then e.unmark else e

namespace Branch

variable {b b' c l r n m parent : Branch} {e : Entry} {id other : String}

/-! ## Marks in pre-order -/

theorem map_unmarkIf {xs : List Entry} (h : other ∉ xs.map Entry.id) :
    xs.map (Entry.unmarkIf (some other)) = xs := by
  refine (List.map_congr_left fun e he => ?_).trans (List.map_id xs)
  rw [Entry.unmarkIf, if_neg]
  · rfl
  · rintro heq
    exact h (Option.some.inj heq ▸ List.mem_map_of_mem he)

theorem map_unmarkIf_entries (h : other ∉ b.ids) :
    b.entries.map (Entry.unmarkIf (some other)) = b.entries :=
  map_unmarkIf (ids_eq_entries b ▸ h)

theorem unmarkIf_self (e : Entry) : e.unmarkIf (some e.id) = e.unmark :=
  if_pos rfl

theorem unmarkIf_of_ne (h : e.id ≠ other) : e.unmarkIf (some other) = e :=
  if_neg fun heq => h (Option.some.inj heq)

/-! ## Parents -/

theorem mem_children : n ∈ b.children ↔ n ≠ absent ∧ (n = b.left ∨ n = b.right) := by
  rw [children, List.mem_filter, List.mem_cons, List.mem_singleton, Bool.not_eq_true', and_comm,
    ← Bool.not_eq_true, isAbsent_iff]

theorem hasId_node : (node e l r).hasId id = true ↔ e.id = id := by
  simp [hasId, id?, entry?]

theorem mem_ids_of_hasId (h : b.hasId id = true) : id ∈ b.ids := by
  cases b with
  | absent => simp [hasId, id?, entry?] at h
  | node e l r => simp [hasId_node.mp h]

theorem hasChild_iff :
    (b.left.hasId id || b.right.hasId id) = true ↔ ∃ n ∈ b.children, n.hasId id = true := by
  rw [Bool.or_eq_true]
  constructor
  · rintro (h | h)
    · refine ⟨b.left, mem_children.mpr ⟨?_, Or.inl rfl⟩, h⟩
      rintro habsent
      simp [habsent, hasId, id?, entry?] at h
    · refine ⟨b.right, mem_children.mpr ⟨?_, Or.inr rfl⟩, h⟩
      rintro habsent
      simp [habsent, hasId, id?, entry?] at h
  · rintro ⟨n, hn, h⟩
    rcases (mem_children.mp hn).2 with rfl | rfl
    · exact Or.inl h
    · exact Or.inr h

theorem hasChild_eq_false (hl : ¬l.hasId id = true) (hr : ¬r.hasId id = true) :
    ((node e l r).left.hasId id || (node e l r).right.hasId id) = false :=
  Bool.or_eq_false_iff.mpr ⟨Bool.not_eq_true _ ▸ hl, Bool.not_eq_true _ ▸ hr⟩

/-- The id of a child stands among those below the topmost node. -/
theorem mem_ids_below (hp : parent ∈ b.preorder) (hn : n ∈ parent.children)
    (hid : n.hasId id = true) : id ∈ b.left.ids ++ b.right.ids := by
  induction b with
  | absent => simp at hp
  | node e l r ihl ihr =>
    rw [preorder_node, List.mem_cons, List.mem_append] at hp
    have hlower : ∀ {x : Branch}, id ∈ x.left.ids ++ x.right.ids → id ∈ x.ids := by
      intro x hx
      cases x with
      | absent => simp [left, right] at hx
      | node f y z => exact (ids_node (e := f) ▸ List.mem_cons_of_mem f.id hx)
    rcases hp with rfl | hp | hp
    · rcases (mem_children.mp hn).2 with rfl | rfl
      · exact List.mem_append_left _ (mem_ids_of_hasId hid)
      · exact List.mem_append_right _ (mem_ids_of_hasId hid)
    · exact List.mem_append_left _ (hlower (ihl hp))
    · exact List.mem_append_right _ (hlower (ihr hp))

theorem not_hasId_of_child (h : b.ids.Nodup) (hp : parent ∈ b.preorder) (hn : n ∈ parent.children)
    (hid : n.hasId id = true) : ¬b.hasId id = true := by
  cases b with
  | absent => simp at hp
  | node e l r =>
    intro htop
    obtain rfl := hasId_node.mp htop
    rw [ids_node, List.nodup_cons] at h
    exact h.1 (mem_ids_below hp hn hid)

theorem mem_ids_of_child (hp : parent ∈ b.preorder) (hn : n ∈ parent.children)
    (hid : n.hasId id = true) : id ∈ b.ids := by
  cases b with
  | absent => simp at hp
  | node e l r =>
    rw [ids_node]
    exact List.mem_cons_of_mem _ (mem_ids_below hp hn hid)

theorem parentOf?_eq_none (h : id ∉ b.ids) : b.parentOf? id = none := by
  refine List.find?_eq_none.mpr fun parent hp hchild => ?_
  obtain ⟨n, hn, hid⟩ := hasChild_iff.mp hchild
  exact h (mem_ids_of_child hp hn hid)

/-- Where ids differ, the parent of a node is the one that is found. -/
theorem parentOf?_of_mem (h : b.ids.Nodup) (hp : parent ∈ b.preorder) (hn : n ∈ parent.children)
    (hid : n.hasId id = true) : b.parentOf? id = some parent := by
  induction b with
  | absent => simp at hp
  | node e l r ihl ihr =>
    have hnodup := h
    rw [ids_node, List.nodup_cons, List.nodup_append] at hnodup
    obtain ⟨-, hl, hr, hdisjoint⟩ := hnodup
    rw [preorder_node, List.mem_cons, List.mem_append] at hp
    rw [parentOf?, preorder_node, List.find?_cons]
    rcases hp with rfl | hp | hp
    · rw [hasChild_iff.mpr ⟨n, hn, hid⟩]
    · have hright : ¬r.hasId id = true := fun hright =>
        hdisjoint id (mem_ids_of_child hp hn hid) id (mem_ids_of_hasId hright) rfl
      rw [hasChild_eq_false (not_hasId_of_child hl hp hn hid) hright, List.find?_append,
        ← parentOf?, ihl hl hp, Option.some_or]
    · have hleft : id ∉ l.ids := fun hmem =>
        hdisjoint id hmem id (mem_ids_of_child hp hn hid) rfl
      rw [hasChild_eq_false (fun hl' => hleft (mem_ids_of_hasId hl'))
        (not_hasId_of_child hr hp hn hid), List.find?_append, ← parentOf?, parentOf?_eq_none hleft,
        Option.none_or, ← parentOf?, ihr hr hp]

/-- What happens to a node below the topmost one is up to its parent. -/
theorem removeAt_of_child (h : b.ids.Nodup) (hp : parent ∈ b.preorder) (hn : n ∈ parent.children)
    (hid : n.hasId id = true) :
    (parent.dropChild? id = none → b.removeAt id = none) ∧
      ∀ c, parent.dropChild? id = some c →
        ∃ b', b.removeAt id = some b' ∧ Replaced parent c b b' := by
  have hparent := parentOf?_of_mem h hp hn hid
  rw [removeAt, if_neg (not_hasId_of_child h hp hn hid), hparent]
  refine ⟨fun hnone => by simp [hnone], fun c hc => ?_⟩
  have hsome : (b.updateFirst? (fun n => n.left.hasId id || n.right.hasId id)
      fun _ => c).isSome := by
    rw [updateFirst?_isSome]
    exact List.any_eq_true.mpr ⟨parent, hp, hasChild_iff.mpr ⟨n, hn, hid⟩⟩
  obtain ⟨b', hb'⟩ := Option.isSome_iff_exists.mp hsome
  obtain ⟨found, hfound, hreplaced⟩ := updateFirst?_eq_some hb'
  obtain rfl : found = parent := Option.some.inj (hfound.symm.trans hparent)
  exact ⟨b', by simp [hc, hb'], hreplaced⟩

/-! ## What a parent becomes -/

/-- A left child that is a permutation leaves its child, another one is taken into its parent if it
is the only child. -/
theorem dropChild?_left (hid : l.hasId id = true) (hl : l.LeftFirst) :
    dropChild? id (node e l r) =
      if !l.isDeletable then none
      else if l.isPermutation then some (node e l.left.unmarkDeletable r)
      else if r.isAbsent then some (node e.unmark l.left l.right) else none := by
  rw [dropChild?]
  simp only [hid, if_true]
  cases l with
  | absent => rfl
  | node f x y =>
    have htop : x = absent → y = absent := (leftFirst_node.mp hl).1
    cases x with
    | absent =>
      obtain rfl := htop rfl
      rfl
    | node g z w => cases y <;> rfl

/-- A right child has a sibling, and so only a permutation is removed. -/
theorem dropChild?_right (hid : ¬l.hasId id = true) (hl : l ≠ absent) :
    dropChild? id (node e l r) =
      if r.isDeletable && r.isPermutation then some (node e l r.left.unmarkDeletable)
      else none := by
  rw [dropChild?]
  simp only [hid, if_false, Bool.false_eq_true]
  cases l with
  | absent => exact absurd rfl hl
  | node d v w =>
    cases r with
    | absent => rfl
    | node f x y =>
      cases hd : (node f x y).isDeletable with
      | false => rfl
      | true => cases x <;> cases y <;> rfl

theorem children_eq_singleton_left (hl : l ≠ absent) :
    (node e l r).children = [l] ↔ r = absent := by
  cases l with
  | absent => exact absurd rfl hl
  | node d v w => cases r <;> simp [children, left, right, isAbsent]

theorem children_ne_singleton_right (hl : l ≠ absent) : (node e l r).children ≠ [r] := by
  cases l with
  | absent => exact absurd rfl hl
  | node d v w => cases r <;> simp [children, left, right, isAbsent]

/-- What a parent becomes without a child: a permutation leaves its own child, and any other node,
being the only child, what is below it. -/
inductive PartsWith (n : Branch) : Branch → Branch → Prop where
  | splicedLeft {e : Entry} {r : Branch} (h : n.isPermutation = true) :
      PartsWith n (node e n r) (node e n.left.unmarkDeletable r)
  | splicedRight {e : Entry} {l : Branch} (h : n.isPermutation = true) :
      PartsWith n (node e l n) (node e l n.left.unmarkDeletable)
  | merged {e : Entry} (h : ¬n.isPermutation = true) :
      PartsWith n (node e n absent) (node e.unmark n.left n.right)

/-- A child is taken away if it may be removed and is a permutation or the only child. -/
theorem dropChild?_cases (hleft : parent.LeftFirst) (hnodup : parent.ids.Nodup)
    (hn : n ∈ parent.children) (hid : n.hasId id = true) :
    ((n.isDeletable = true ∧ (n.isPermutation = true ∨ parent.children = [n])) ∧
      ∃ c, parent.dropChild? id = some c ∧ PartsWith n parent c) ∨
    (¬(n.isDeletable = true ∧ (n.isPermutation = true ∨ parent.children = [n])) ∧
      parent.dropChild? id = none) := by
  cases parent with
  | absent => simp [children, left, right, isAbsent] at hn
  | node e l r =>
    obtain ⟨hne, hside⟩ := mem_children.mp hn
    obtain ⟨htop, hl, -⟩ := leftFirst_node.mp hleft
    rw [ids_node, List.nodup_cons, List.nodup_append] at hnodup
    have hside : n = l ∨ n = r := hside
    rcases hside with rfl | rfl
    · rw [dropChild?_left hid hl, children_eq_singleton_left hne]
      by_cases hdel : n.isDeletable = true
      · rw [hdel]
        by_cases hperm : n.isPermutation = true
        · exact Or.inl ⟨⟨rfl, Or.inl hperm⟩, _, if_pos hperm, .splicedLeft hperm⟩
        · by_cases hr : r = absent
          · subst hr
            exact Or.inl ⟨⟨rfl, Or.inr rfl⟩, _, if_neg hperm, .merged hperm⟩
          · refine Or.inr ⟨fun h => h.2.elim hperm hr, (if_neg hperm).trans (if_neg ?_)⟩
            exact fun habsent => hr (isAbsent_iff.mp habsent)
      · refine Or.inr ⟨fun h => hdel h.1, if_pos (by simpa using hdel)⟩
    · have hl' : l ≠ absent := fun habsent => hne (htop habsent)
      have hid' : ¬l.hasId id = true := fun h =>
        hnodup.2.2.2 id (mem_ids_of_hasId h) id (mem_ids_of_hasId hid) rfl
      rw [dropChild?_right hid' hl']
      by_cases h : n.isDeletable = true ∧ n.isPermutation = true
      · exact Or.inl ⟨⟨h.1, Or.inl h.2⟩, _, if_pos (Bool.and_eq_true .. ▸ h), .splicedRight h.2⟩
      · refine Or.inr ⟨fun hboth => h ⟨hboth.1, ?_⟩, if_neg (Bool.and_eq_true .. ▸ h)⟩
        exact hboth.2.resolve_right (children_ne_singleton_right hl')

theorem isPermutation_iff :
    n.isPermutation = true ↔ ∃ f g x y, n = node f (node g x y) absent := by
  constructor
  · intro h
    cases n with
    | absent => cases h
    | node f x y =>
      cases x with
      | absent => cases h
      | node g z w =>
        cases y with
        | absent => exact ⟨f, g, z, w, rfl⟩
        | node => cases h
  · rintro ⟨f, g, x, y, rfl⟩
    rfl

/-- The entry of the child is missing, and one mark has been taken off. -/
theorem PartsWith.entries (h : PartsWith n parent c) (hne : n ≠ absent)
    (hnodup : parent.ids.Nodup) :
    ∃ before e after other, parent.entries = before ++ e :: after ∧ n.id? = some e.id ∧
      other ∈ parent.ids ∧ (if n.isPermutation then n.left.id? else parent.id?) = some other ∧
      c.entries = (before ++ after).map (Entry.unmarkIf (some other)) := by
  cases h with
  | @splicedLeft e r hperm =>
    obtain ⟨f, g, x, y, rfl⟩ := isPermutation_iff.mp hperm
    have htop : e.id ≠ g.id := fun heq => by simp [heq] at hnodup
    have hx : g.id ∉ x.ids := fun hx => by simp [hx] at hnodup
    have hy : g.id ∉ y.ids := fun hy => by simp [hy] at hnodup
    have hr : g.id ∉ r.ids := fun hr => by simp [List.nodup_append, hr] at hnodup
    refine ⟨[e], f, (node g x y).entries ++ r.entries, g.id, by simp, rfl, by simp, rfl, ?_⟩
    simp [left, unmarkDeletable, mapTop, unmarkIf_self, unmarkIf_of_ne htop,
      map_unmarkIf_entries hx, map_unmarkIf_entries hy, map_unmarkIf_entries hr]
  | @splicedRight e l hperm =>
    obtain ⟨f, g, x, y, rfl⟩ := isPermutation_iff.mp hperm
    have htop : e.id ≠ g.id := fun heq => by simp [heq] at hnodup
    have hl : g.id ∉ l.ids := by
      rw [ids_node, List.nodup_cons, List.nodup_append] at hnodup
      exact fun hl => hnodup.2.2.2 g.id hl g.id (by simp) rfl
    have hx : g.id ∉ x.ids := fun hx => by simp [List.nodup_append, hx] at hnodup
    have hy : g.id ∉ y.ids := fun hy => by simp [List.nodup_append, hy] at hnodup
    refine ⟨e :: l.entries, f, (node g x y).entries, g.id, by simp, rfl, by simp, rfl, ?_⟩
    simp [left, unmarkDeletable, mapTop, unmarkIf_self, unmarkIf_of_ne htop,
      map_unmarkIf_entries hl, map_unmarkIf_entries hx, map_unmarkIf_entries hy]
  | @merged e hperm =>
    cases n with
    | absent => exact absurd rfl hne
    | node f x y =>
      have hx : e.id ∉ x.ids := fun hx => by simp [hx] at hnodup
      have hy : e.id ∉ y.ids := fun hy => by simp [hy] at hnodup
      refine ⟨[e], f, x.entries ++ y.entries, e.id, by simp, rfl, by simp, if_neg hperm, ?_⟩
      simp [left, right, unmarkIf_self, map_unmarkIf_entries hx, map_unmarkIf_entries hy]

/-! ## What a removal does -/

/-- The node with an id may be removed: the topmost one if it is a permutation, and any other one if
it is a permutation or an only child. -/
def Removable (b : Branch) (id : String) : Prop :=
  (b.hasId id ∧ b.isDeletable ∧ b.isPermutation) ∨
    ∃ parent ∈ b.preorder, ∃ n ∈ parent.children, n.hasId id ∧ n.isDeletable ∧
      (n.isPermutation ∨ parent.children = [n])

theorem preorder_sublist (h : n ∈ b.preorder) : n.preorder.Sublist b.preorder := by
  induction b with
  | absent => simp at h
  | node e l r ihl ihr =>
    rw [preorder_node, List.mem_cons, List.mem_append] at h
    rcases h with rfl | h | h
    · exact List.Sublist.refl _
    · rw [preorder_node]
      exact ((ihl h).trans (List.sublist_append_left ..)).cons _
    · rw [preorder_node]
      exact ((ihr h).trans (List.sublist_append_right ..)).cons _

theorem LeftFirst.of_mem (h : b.LeftFirst) (hn : n ∈ b.preorder) : n.LeftFirst :=
  fun m hm => h m ((preorder_sublist hn).subset hm)

theorem nodup_ids_of_mem (h : b.ids.Nodup) (hn : n ∈ b.preorder) : n.ids.Nodup :=
  ((preorder_sublist hn).filterMap id?).nodup h

/-- A node is the topmost one or has a parent. -/
theorem hasId_or_child (hx : id ∈ b.ids) : b.hasId id = true ∨
    ∃ parent ∈ b.preorder, ∃ n ∈ parent.children, n.hasId id = true := by
  induction b with
  | absent => simp at hx
  | node e l r ihl ihr =>
    have hchild : ∀ {x : Branch}, x = l ∨ x = r → x.hasId id = true →
        ∃ parent ∈ (node e l r).preorder, ∃ n ∈ parent.children, n.hasId id = true := by
      rintro x hx hid
      refine ⟨node e l r, by simp, x, mem_children.mpr ⟨?_, hx⟩, hid⟩
      rintro rfl
      cases hid
    rw [ids_node, List.mem_cons, List.mem_append] at hx
    rcases hx with rfl | hx | hx
    · exact Or.inl (hasId_node.mpr rfl)
    · rcases ihl hx with hid | ⟨parent, hp, hn⟩
      · exact Or.inr (hchild (Or.inl rfl) hid)
      · exact Or.inr ⟨parent, by simp [hp], hn⟩
    · rcases ihr hx with hid | ⟨parent, hp, hn⟩
      · exact Or.inr (hchild (Or.inr rfl) hid)
      · exact Or.inr ⟨parent, by simp [hp], hn⟩

theorem removeAt_top (hid : b.hasId id = true) :
    b.removeAt id = if b.isDeletable && b.isPermutation then some b.left else none := by
  rw [removeAt, if_pos hid]

/-- A child is removed if it may be removed and is a permutation or the only child, and then a
parent without it stands in the place of the parent. -/
theorem removeAt_child (hleft : b.LeftFirst) (hnodup : b.ids.Nodup) (hp : parent ∈ b.preorder)
    (hn : n ∈ parent.children) (hid : n.hasId id = true) :
    ((n.isDeletable = true ∧ (n.isPermutation = true ∨ parent.children = [n])) ∧
      ∃ c b', PartsWith n parent c ∧ b.removeAt id = some b' ∧ Replaced parent c b b') ∨
    (¬(n.isDeletable = true ∧ (n.isPermutation = true ∨ parent.children = [n])) ∧
      b.removeAt id = none) := by
  obtain ⟨hnone, hsome⟩ := removeAt_of_child hnodup hp hn hid
  rcases dropChild?_cases (hleft.of_mem hp) (nodup_ids_of_mem hnodup hp) hn hid with
    ⟨hmay, c, hc, hparts⟩ | ⟨hno, hdrop⟩
  · obtain ⟨b', hb', hreplaced⟩ := hsome c hc
    exact Or.inl ⟨hmay, c, b', hparts, hb', hreplaced⟩
  · exact Or.inr ⟨hno, hnone hdrop⟩

/-- A removal applies exactly to a node that may be removed. -/
theorem removeAt_isSome (hleft : b.LeftFirst) (hnodup : b.ids.Nodup) :
    (∃ b', b.removeAt id = some b') ↔ b.Removable id := by
  constructor
  · rintro ⟨b', hb'⟩
    by_cases hx : id ∈ b.ids
    · rcases hasId_or_child hx with hid | ⟨parent, hp, n, hn, hid⟩
      · rw [removeAt_top hid, Option.ite_none_right_eq_some, Bool.and_eq_true] at hb'
        exact Or.inl ⟨hid, hb'.1⟩
      · rcases removeAt_child hleft hnodup hp hn hid with ⟨hmay, -⟩ | ⟨-, hnone⟩
        · exact Or.inr ⟨parent, hp, n, hn, hid, hmay⟩
        · cases hb'.symm.trans hnone
    · have htop : ¬b.hasId id = true := fun hid => hx (mem_ids_of_hasId hid)
      rw [removeAt, if_neg htop, parentOf?_eq_none hx] at hb'
      cases hb'
  · rintro (⟨hid, hmay⟩ | ⟨parent, hp, n, hn, hid, hmay⟩)
    · exact ⟨b.left, by rw [removeAt_top hid, if_pos (Bool.and_eq_true .. ▸ hmay)]⟩
    · rcases removeAt_child hleft hnodup hp hn hid with ⟨-, c, b', -, hb', -⟩ | ⟨hno, -⟩
      · exact ⟨b', hb'⟩
      · exact absurd hmay hno

/-- At the top only the entry of the permutation goes. -/
theorem removeAt_top_entries (hid : b.hasId id = true) (h : b.removeAt id = some b') :
    ∃ e, b.entries = e :: b'.entries ∧ e.id = id := by
  rw [removeAt_top hid, Option.ite_none_right_eq_some, Bool.and_eq_true] at h
  obtain ⟨⟨-, hperm⟩, hb'⟩ := h
  obtain ⟨f, g, x, y, rfl⟩ := isPermutation_iff.mp hperm
  obtain rfl := Option.some.inj hb'
  exact ⟨f, by simp [left], hasId_node.mp hid⟩

/-- Below the top the entry of the node goes, and the mark of the child that is left in its place,
or else of the parent. -/
theorem removeAt_child_entries (hleft : b.LeftFirst) (hnodup : b.ids.Nodup)
    (hp : parent ∈ b.preorder) (hn : n ∈ parent.children) (hid : n.hasId id = true)
    (h : b.removeAt id = some b') :
    ∃ before e after, b.entries = before ++ e :: after ∧ e.id = id ∧
      b'.entries = (before ++ after).map
        (Entry.unmarkIf (if n.isPermutation then n.left.id? else parent.id?)) := by
  rcases removeAt_child hleft hnodup hp hn hid with
    ⟨-, c, b'', hparts, hb'', hreplaced⟩ | ⟨-, hnone⟩
  · obtain rfl : b'' = b' := Option.some.inj (hb''.symm.trans h)
    obtain ⟨before, e, after, other, hentries, hide, hother, heq, hc⟩ :=
      hparts.entries (mem_children.mp hn).1 (nodup_ids_of_mem hnodup hp)
    obtain ⟨first, last, hb, hb'⟩ := hreplaced.entries
    -- the mark is one within the parent, so that all around it stays as it is
    rw [ids_eq_entries, hb, List.map_append, List.map_append, ← ids_eq_entries] at hnodup
    have hfirst : other ∉ first.map Entry.id := fun hmem =>
      (List.nodup_append.mp (List.nodup_append.mp hnodup).1).2.2 other hmem other hother rfl
    have hlast : other ∉ last.map Entry.id := fun hmem =>
      (List.nodup_append.mp hnodup).2.2 other (List.mem_append_right _ hother) other hmem rfl
    have hid' : some e.id = some id := by
      rw [← hide]
      exact beq_iff_eq.mp hid
    refine ⟨first ++ before, e, after ++ last, ?_, Option.some.inj hid', ?_⟩
    · rw [hb, hentries]
      simp
    · rw [hb', hc, heq]
      simp [map_unmarkIf hfirst, map_unmarkIf hlast]
  · cases h.symm.trans hnone

end Branch

end Contraction
