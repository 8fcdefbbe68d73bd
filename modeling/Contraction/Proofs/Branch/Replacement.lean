import Contraction.Branch.Walk

/-!
# One node replaced

An edit changes a branch at one node. `Branch.Replaced n m b b'` says that `b'` is `b` with `m` in
the place where `n` stood; what an edit does to a whole branch then follows from what it does to
that node. The nodes are compared by their entries in pre-order, with marks and measures or without
them (`entries`, `bareEntries`), and of these, those of the replaced node are one block.
-/

namespace Contraction

/-- What a node carries without its mark and its measures. -/
def Entry.bare (e : Entry) : Entry :=
  { e with deletable := .bool false, measures := .unset }

namespace Branch

variable {n m b b' l r : Branch} {e : Entry} {id : String}

/-- One branch is another with one in the place of one inside it. -/
inductive Replaced (n m : Branch) : Branch → Branch → Prop where
  | here : Replaced n m n m
  | left {e : Entry} {l l' r : Branch} (h : Replaced n m l l') :
      Replaced n m (node e l r) (node e l' r)
  | right {e : Entry} {l r r' : Branch} (h : Replaced n m r r') :
      Replaced n m (node e l r) (node e l r')

/-- A change of the first node that a condition holds of puts the changed node in its place. -/
theorem updateFirst?_eq_some {holds : Branch → Bool} {change : Branch → Branch}
    (h : b.updateFirst? holds change = some b') :
    ∃ n, b.preorder.find? holds = some n ∧ Replaced n (change n) b b' := by
  induction b generalizing b' with
  | absent => simp [updateFirst?] at h
  | node e l r ihl ihr =>
    rw [updateFirst?] at h
    rw [preorder_node, List.find?_cons]
    by_cases hn : holds (node e l r)
    · rw [if_pos hn, Option.some.injEq] at h
      subst h
      exact ⟨node e l r, by rw [hn], .here⟩
    · rw [if_neg hn] at h
      rw [Bool.not_eq_true] at hn
      rw [hn, List.find?_append]
      have hsome := updateFirst?_isSome holds change l
      cases hl : l.updateFirst? holds change with
      | some l' =>
        rw [hl, Option.some.injEq] at h
        subst h
        obtain ⟨n, hfind, hreplaced⟩ := ihl hl
        exact ⟨n, by rw [hfind, Option.some_or], .left hreplaced⟩
      | none =>
        rw [hl] at h hsome
        obtain ⟨r', hr, rfl⟩ := Option.map_eq_some_iff.mp h
        obtain ⟨n, hfind, hreplaced⟩ := ihr hr
        -- nothing on the left side satisfies the condition, so the first node is on the right
        have hleft : l.preorder.find? holds = none := by
          rw [List.find?_eq_none]
          intro x hx hh
          have hany : l.preorder.any holds = true := List.any_eq_true.mpr ⟨x, hx, hh⟩
          rw [← hsome] at hany
          exact absurd hany (by decide)
        exact ⟨n, by rw [hleft, Option.none_or, hfind], .right hreplaced⟩

/-! ## Nodes by their ids -/

theorem mem_of_find? (h : b.find? id = some n) : n ∈ b.preorder :=
  List.mem_of_find?_eq_some h

theorem id?_of_find? (h : b.find? id = some n) : n.id? = some id := by
  have hid := List.find?_some h
  rwa [hasId, beq_iff_eq] at hid

theorem exists_entry_of_find? (h : b.find? id = some n) :
    ∃ e l r, n = node e l r ∧ e.id = id := by
  have hid := id?_of_find? h
  cases n with
  | absent => cases hid
  | node e l r => exact ⟨e, l, r, rfl, Option.some.inj hid⟩

/-- Of members that differ in what they have of a key, one is found by it. -/
theorem find?_of_nodup {α κ : Type} [BEq κ] [LawfulBEq κ] {key : α → Option κ} {xs : List α} {x : α}
    {k : κ} (h : (xs.filterMap key).Nodup) (hx : x ∈ xs) (hk : key x = some k) :
    xs.find? (fun y => key y == some k) = some x := by
  induction xs with
  | nil => cases hx
  | cons y ys ih =>
    rw [List.find?_cons]
    by_cases hy : key y = some k
    · rw [hy, beq_self_eq_true]
      rcases List.mem_cons.mp hx with rfl | hx
      · rfl
      · rw [List.filterMap_cons_some hy, List.nodup_cons] at h
        exact absurd (List.mem_filterMap.mpr ⟨x, hx, hk⟩) h.1
    · have hne : x ≠ y := fun heq => hy (heq ▸ hk)
      rw [beq_false_of_ne hy]
      have hys := (h.sublist ((List.sublist_cons_self y ys).filterMap key))
      exact ih hys ((List.mem_cons.mp hx).resolve_left hne)

theorem find?_of_mem (h : b.ids.Nodup) (hn : node e l r ∈ b.preorder) :
    b.find? e.id = some (node e l r) :=
  find?_of_nodup h hn rfl

/-! ## What the replaced node decides -/

namespace Replaced

theorem ne_absent (h : Replaced n m b b') (hm : m ≠ absent) : b' ≠ absent := by
  cases h with
  | here => exact hm
  | left h => exact fun hb => by cases hb
  | right h => exact fun hb => by cases hb

theorem isAbsent_eq (h : Replaced n m b b') (hm : m.isAbsent = n.isAbsent) :
    b'.isAbsent = b.isAbsent := by
  cases h with
  | here => exact hm
  | left h => rfl
  | right h => rfl

theorem labels_eq (h : Replaced n m b b') (hm : m.labels = n.labels) : b'.labels = b.labels := by
  cases h with
  | here => exact hm
  | left h => rfl
  | right h => rfl

end Replaced

/-! ## The entries of a branch -/

theorem postorder_perm_preorder (b : Branch) : b.postorder.Perm b.preorder := by
  induction b with
  | absent => rw [postorder_absent, preorder_absent]
  | node e l r ihl ihr =>
    rw [postorder_node, preorder_node]
    exact List.perm_append_comm.trans ((ihl.append ihr).cons _)

@[simp] theorem ids_absent : ids absent = [] := by
  rw [ids, preorder_absent, List.filterMap_nil]

@[simp] theorem ids_node : (node e l r).ids = e.id :: (l.ids ++ r.ids) := by
  simp only [ids, preorder_node, List.filterMap_cons, List.filterMap_append, id?, entry?,
    Option.map_some]

/-- What the nodes carry, in pre-order. -/
def entries (b : Branch) : List Entry :=
  b.preorder.filterMap entry?

@[simp] theorem entries_absent : entries absent = [] := by
  rw [entries, preorder_absent, List.filterMap_nil]

@[simp] theorem entries_node : (node e l r).entries = e :: (l.entries ++ r.entries) := by
  simp only [entries, preorder_node, List.filterMap_cons, List.filterMap_append, entry?]

theorem ids_eq_entries (b : Branch) : b.ids = b.entries.map Entry.id :=
  (List.map_filterMap ..).symm

theorem mapEntries_mapEntries (f g : Entry → Entry) (b : Branch) :
    (b.mapEntries f).mapEntries g = b.mapEntries fun e => g (f e) := by
  induction b with
  | absent => rfl
  | node e l r ihl ihr => rw [mapEntries, mapEntries, mapEntries, ihl, ihr]

theorem mapEntries_eq_self {f : Entry → Entry} (h : ∀ e ∈ b.entries, f e = e) :
    b.mapEntries f = b := by
  induction b with
  | absent => rfl
  | node e l r ihl ihr =>
    rw [entries_node, List.forall_mem_cons, List.forall_mem_append] at h
    rw [mapEntries, h.1, ihl h.2.1, ihr h.2.2]

/-- The entries of the replaced node are one block of those of the branch. -/
theorem Replaced.entries (h : Replaced n m b b') :
    ∃ before after, b.entries = before ++ n.entries ++ after ∧
      b'.entries = before ++ m.entries ++ after := by
  induction h with
  | here => exact ⟨[], [], by simp, by simp⟩
  | @left e l l' r h ih =>
    obtain ⟨before, after, hb, hb'⟩ := ih
    exact ⟨e :: before, after ++ r.entries, by simp [hb], by simp [hb']⟩
  | @right e l r r' h ih =>
    obtain ⟨before, after, hb, hb'⟩ := ih
    exact ⟨e :: (l.entries ++ before), after, by simp [hb], by simp [hb']⟩

/-- What the nodes carry besides marks and measures, in pre-order. -/
def bareEntries (b : Branch) : List Entry :=
  b.preorder.filterMap fun n => n.entry?.map Entry.bare

theorem bareEntries_eq_entries (b : Branch) : b.bareEntries = b.entries.map Entry.bare :=
  (List.map_filterMap ..).symm

@[simp] theorem bareEntries_absent : bareEntries absent = [] := by
  rw [bareEntries_eq_entries, entries_absent, List.map_nil]

@[simp] theorem bareEntries_node :
    (node e l r).bareEntries = e.bare :: (l.bareEntries ++ r.bareEntries) := by
  simp only [bareEntries_eq_entries, entries_node, List.map_cons, List.map_append]

theorem ids_eq_bareEntries (b : Branch) : b.ids = b.bareEntries.map Entry.id := by
  rw [bareEntries_eq_entries, ids_eq_entries, List.map_map]
  rfl

/-- The entry of a node is listed, apart from mark and measures. -/
theorem bare_mem_bareEntries (h : node e l r ∈ b.preorder) : e.bare ∈ b.bareEntries :=
  List.mem_filterMap.mpr ⟨_, h, rfl⟩

theorem exists_of_mem_bareEntries {x : Entry} (h : x ∈ b.bareEntries) :
    ∃ e l r, node e l r ∈ b.preorder ∧ e.bare = x := by
  obtain ⟨n, hn, hx⟩ := List.mem_filterMap.mp h
  cases n with
  | absent => cases hx
  | node e l r => exact ⟨e, l, r, hn, Option.some.inj hx⟩

theorem Replaced.bareEntries (h : Replaced n m b b') :
    ∃ before after, b.bareEntries = before ++ n.bareEntries ++ after ∧
      b'.bareEntries = before ++ m.bareEntries ++ after := by
  obtain ⟨before, after, hb, hb'⟩ := h.entries
  refine ⟨before.map Entry.bare, after.map Entry.bare, ?_, ?_⟩
  · simp only [bareEntries_eq_entries, hb, List.map_append]
  · simp only [bareEntries_eq_entries, hb', List.map_append]

end Branch

end Contraction
