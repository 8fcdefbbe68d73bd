import Contraction.Proofs.Dimensions.Kinds
import Mathlib.Data.List.Nodup

/-!
# Placing the labels of a node

The first loop of placing goes through exactly if the labels of the node are covered by the
operands, and then the buckets hold those labels by kind.

The loop works on lists that shrink. What carries it is `Scan.Faithful`: as far as the labels of the
node are concerned, the lists are the original ones without what has been placed. A label that only
stands in the way is in both lists and no longer in the node, so it is one that is summed over, and
taking it off leaves `Scan.Faithful` as it is.
-/

namespace Contraction

namespace Scan

variable {o : Operands} {done : List Label} {s t : Scan} {label : Label} {rest : List Label}

/-- The lists as they are now. -/
def operands (s : Scan) : Operands :=
  ⟨s.node, s.left, s.right⟩

/-- The labels of the node that have been placed are `done`, and the rest of the scan agrees with
the operands from which it began. -/
structure Faithful (o : Operands) (done : List Label) (s : Scan) : Prop where
  node_eq : done ++ s.node = o.node.reverse
  nodup : done.Nodup
  named : ∀ label ∈ done, label.IsNamed
  covered : ∀ label ∈ done, label ∈ o.left ∨ label ∈ o.right
  mem_left : ∀ label ∈ o.node, label ∈ s.left ↔ label ∈ o.left ∧ label ∉ done
  mem_right : ∀ label ∈ o.node, label ∈ s.right ↔ label ∈ o.right ∧ label ∉ done
  dims : s.dims.Lists fun kind name => some name ∈ done ∧ o.HasKind kind (some name)

theorem mem_without {x : Label} {labels : List Label} :
    x ∈ without label labels ↔ x ∈ labels ∧ x ≠ label := by
  simp [without]

namespace Faithful

theorem mem_node (h : s.Faithful o done) : label ∈ o.node ↔ label ∈ done ∨ label ∈ s.node := by
  rw [← List.mem_reverse, ← h.node_eq, List.mem_append]

/-- The kind that a label of the node has now is the one that it had at first, and the label has not
been placed. -/
theorem hasKind (h : s.Faithful o done) {kind : Kind} (hn : label ∈ s.node)
    (hk : s.operands.HasKind kind label) : o.HasKind kind label ∧ label ∉ done := by
  have ho : label ∈ o.node := h.mem_node.mpr (Or.inr hn)
  have hl := h.mem_left label ho
  have hr := h.mem_right label ho
  cases kind with
  | c =>
    obtain ⟨-, hL, hR⟩ := hk
    exact ⟨⟨ho, (hl.mp hL).1, (hr.mp hR).1⟩, (hl.mp hL).2⟩
  | m =>
    obtain ⟨-, hL, hR⟩ := hk
    obtain ⟨hoL, hfresh⟩ := hl.mp hL
    exact ⟨⟨ho, hoL, fun hoR => hR (hr.mpr ⟨hoR, hfresh⟩)⟩, hfresh⟩
  | n =>
    obtain ⟨-, hL, hR⟩ := hk
    obtain ⟨hoR, hfresh⟩ := hr.mp hR
    exact ⟨⟨ho, fun hoL => hL (hl.mpr ⟨hoL, hfresh⟩), hoR⟩, hfresh⟩
  | k => exact absurd hn hk.1

/-- A label with a name that is in the buckets has been placed. -/
theorem mem_done (h : s.Faithful o done) {name : String} (hm : name ∈ s.dims.labels) :
    some name ∈ done := by
  obtain ⟨-, hdone, -⟩ := h.dims.mem_labels.mp hm
  exact hdone

theorem place_ok (h : s.Faithful o done) (hn : s.node = label :: rest) {part : Part} {kind : Kind}
    {pointer : Pointer} (hk : s.operands.HasKind kind label)
    (hp : s.place part kind pointer label rest = .ok t) : t.Faithful o (done ++ [label]) := by
  obtain ⟨hko, hfresh⟩ := h.hasKind (by simp [hn]) hk
  have ho : label ∈ o.node := h.mem_node.mpr (Or.inr (by simp [hn]))
  cases he : s.dims.enter part kind label with
  | error e => simp [place, he, Except.map] at hp
  | ok d =>
    simp only [place, he, Except.map, Except.ok.injEq] at hp
    subst hp
    obtain ⟨name, rfl, hname, hnew, rfl⟩ := Dimensions.enter_eq_ok he
    refine ⟨?_, ?_, ?_, ?_, ?_, ?_, (h.dims.push hnew).congr ?_⟩
    · rw [List.append_assoc, List.singleton_append, ← hn]
      exact h.node_eq
    · exact List.nodup_append.mpr ⟨h.nodup, by simp, by
        intro a ha b hb hab
        exact hfresh (List.mem_singleton.mp hb ▸ hab ▸ ha)⟩
    · exact List.forall_mem_append.mpr ⟨h.named, List.forall_mem_singleton.mpr hname⟩
    · refine List.forall_mem_append.mpr ⟨h.covered, List.forall_mem_singleton.mpr ?_⟩
      cases kind <;> simp_all [Operands.HasKind]
    · intro x hx
      rw [mem_without, h.mem_left x hx, List.mem_append, List.mem_singleton, not_or, and_assoc]
    · intro x hx
      rw [mem_without, h.mem_right x hx, List.mem_append, List.mem_singleton, not_or, and_assoc]
    · intro place x
      rw [List.mem_append, List.mem_singleton]
      constructor
      · rintro (⟨rfl, rfl⟩ | ⟨hx, hkx⟩)
        · exact ⟨Or.inr rfl, hko⟩
        · exact ⟨Or.inl hx, hkx⟩
      · rintro ⟨hx | hx, hkx⟩
        · exact Or.inr ⟨hx, hkx⟩
        · obtain rfl : x = name := Option.some.inj hx
          exact Or.inl ⟨rfl, hkx.unique hko⟩

theorem place_error (h : s.Faithful o done) (hn : s.node = label :: rest) {part : Part}
    {kind : Kind} {pointer : Pointer} {fault : ClassFault} (hk : s.operands.HasKind kind label)
    (hp : s.place part kind pointer label rest = .error fault) : ¬o.NodeCovered := by
  obtain ⟨-, hfresh⟩ := h.hasKind (by simp [hn]) hk
  have ho : label ∈ o.node := h.mem_node.mpr (Or.inr (by simp [hn]))
  cases he : s.dims.enter part kind label with
  | ok d => simp [place, he, Except.map] at hp
  | error e =>
    intro hc
    rcases Dimensions.enter_eq_error he with hnamed | ⟨name, rfl, hm⟩
    · exact hnamed (hc.named label ho)
    · exact hfresh (h.mem_done hm)

/-- What stands in the way is no label of the node. -/
theorem unblock (h : s.Faithful o done) {blocker : Label} (hb : s.blocking? = some blocker)
    (hnode : blocker ∉ s.node) : (s.unblock blocker).Faithful o done := by
  have hne : ∀ x ∈ o.node, x ≠ blocker := by
    rintro x hx rfl
    have hdone := ((h.mem_left x hx).mp (blocking?_mem hb).1).2
    exact (h.mem_node.mp hx).elim hdone hnode
  refine ⟨h.node_eq, h.nodup, h.named, h.covered, ?_, ?_, h.dims⟩
  · intro x hx
    simp only [Scan.unblock, mem_without, hne x hx, ne_eq, not_false_eq_true, and_true]
    exact h.mem_left x hx
  · intro x hx
    simp only [Scan.unblock, mem_without, hne x hx, ne_eq, not_false_eq_true, and_true]
    exact h.mem_right x hx

end Faithful

theorem blocking?_not_mem_node {blocker : Label} (h : s.blocking? = some blocker) :
    blocker ∉ s.node := by
  unfold blocking? at h
  split at h
  · split at h
    · simp_all
    · split at h
      · simp_all
      · simp at h
  · simp at h

/-- A label goes into the primitive part as the kind that it has. -/
theorem primitiveKind?_hasKind {kind : Kind} (hn : label ∈ s.node)
    (h : s.primitiveKind? label = some kind) : s.operands.HasKind kind label := by
  unfold primitiveKind? at h
  simp only [Bool.and_eq_true, beq_iff_eq, Bool.not_eq_true', List.contains_eq_mem,
    decide_eq_false_iff_not] at h
  split at h
  · next hc =>
    obtain rfl := Option.some.inj h
    exact ⟨hn, List.mem_of_head? hc.1.1, List.mem_of_head? hc.1.2⟩
  · split at h
    · next hm =>
      obtain rfl := Option.some.inj h
      exact ⟨hn, List.mem_of_head? hm.1.1.1, hm.2⟩
    · split at h
      · next hr =>
        obtain rfl := Option.some.inj h
        exact ⟨hn, hr.2, List.mem_of_head? hr.1.1.1⟩
      · simp at h

/-- One step places the label as the kind that it has, or takes off what stands in its way, or
finds that the label is in neither operand. -/
theorem step_cases (hn : s.node = label :: rest) :
    (∃ part kind pointer, s.operands.HasKind kind label ∧
        s.step label rest = s.place part kind pointer label rest) ∨
      (∃ blocker, s.blocking? = some blocker ∧ s.step label rest = .ok (s.unblock blocker)) ∨
      (label ∉ s.left ∧ label ∉ s.right ∧ s.step label rest = .error (.malformedAt label)) := by
  have hm : label ∈ s.node := by simp [hn]
  unfold step
  split
  · next kind hp =>
    exact Or.inl ⟨_, _, _, primitiveKind?_hasKind hm hp, rfl⟩
  · by_cases hl : label ∈ s.left
    · rw [if_pos (by simpa using hl)]
      refine Or.inl ⟨_, _, _, ?_, rfl⟩
      by_cases hr : label ∈ s.right
      · rw [if_pos (by simpa using hr)]
        exact ⟨hm, hl, hr⟩
      · rw [if_neg (by simpa using hr)]
        exact ⟨hm, hl, hr⟩
    · rw [if_neg (by simpa using hl)]
      split
      · next blocker hb => exact Or.inr (Or.inl ⟨blocker, hb, rfl⟩)
      · by_cases hr : label ∈ s.right
        · rw [if_pos (by simpa using hr)]
          exact Or.inl ⟨_, .n, _, ⟨hm, hl, hr⟩, rfl⟩
        · rw [if_neg (by simpa using hr)]
          exact Or.inr (Or.inr ⟨hl, hr, rfl⟩)

/-- A step keeps the scan faithful; what it has placed may have grown by the label. -/
theorem Faithful.step_ok (h : s.Faithful o done) (hn : s.node = label :: rest)
    (hs : s.step label rest = .ok t) : ∃ done, t.Faithful o done := by
  rcases step_cases hn with ⟨part, kind, pointer, hk, he⟩ | ⟨blocker, hb, he⟩ | ⟨_, _, he⟩
  · exact ⟨done ++ [label], h.place_ok hn hk (he ▸ hs)⟩
  · rw [he] at hs
    obtain rfl := Except.ok.inj hs
    exact ⟨done, h.unblock hb (blocking?_not_mem_node hb)⟩
  · simp [he] at hs

/-- A step that fails has met a label twice, one without a name, or one that no operand has. -/
theorem Faithful.step_error {fault : ClassFault} (h : s.Faithful o done)
    (hn : s.node = label :: rest) (hs : s.step label rest = .error fault) : ¬o.NodeCovered := by
  rcases step_cases hn with ⟨part, kind, pointer, hk, he⟩ | ⟨blocker, hb, he⟩ | ⟨hl, hr, he⟩
  · exact h.place_error hn hk (he ▸ hs)
  · simp [he] at hs
  · intro hc
    have ho : label ∈ o.node := h.mem_node.mpr (Or.inr (by simp [hn]))
    -- the label is in an operand, so it can be missing there only if it has been placed before
    have hdone : label ∈ done := by
      refine Decidable.byContradiction fun hfresh => ?_
      rcases hc.covered label ho with hL | hR
      · exact hl ((h.mem_left label ho).mpr ⟨hL, hfresh⟩)
      · exact hr ((h.mem_right label ho).mpr ⟨hR, hfresh⟩)
    have hnodup : (done ++ label :: rest).Nodup := by
      rw [← hn, h.node_eq]
      exact List.nodup_reverse.mpr hc.nodup
    exact (List.nodup_append.mp hnodup).2.2 label hdone label (by simp) rfl

/-! ## The whole loop -/

/-- At the end all labels of the node have been placed. -/
theorem Faithful.finished (h : s.Faithful o done) (hn : s.node = []) :
    o.NodeCovered ∧ s.dims.Lists fun kind name => kind ≠ .k ∧ o.HasKind kind (some name) := by
  have heq : done = o.node.reverse := by simpa [hn] using h.node_eq
  have hm : ∀ x, x ∈ o.node ↔ x ∈ done := fun x => by simp [heq]
  refine ⟨⟨?_, ?_, ?_⟩, h.dims.congr ?_⟩
  · exact List.nodup_reverse.mp (heq ▸ h.nodup)
  · exact fun x hx => h.named x ((hm x).mp hx)
  · exact fun x hx => h.covered x ((hm x).mp hx)
  · intro kind name
    rw [← hm]
    cases kind <;> simp +contextual [Operands.HasKind]

theorem Faithful.placeNode_ok (h : s.Faithful o done) {d : Dimensions}
    (hd : s.placeNode = .ok d) :
    o.NodeCovered ∧ d.Lists fun kind name => kind ≠ .k ∧ o.HasKind kind (some name) := by
  fun_induction placeNode s generalizing done with
  | case1 s hn => exact Except.ok.inj hd ▸ h.finished hn
  | case2 s label rest hn e hs => simp at hd
  | case3 s label rest hn t hs ih =>
    obtain ⟨done, ht⟩ := h.step_ok hn hs
    exact ih ht hd

theorem Faithful.placeNode_error (h : s.Faithful o done) {fault : ClassFault}
    (hd : s.placeNode = .error fault) : ¬o.NodeCovered := by
  fun_induction placeNode s generalizing done with
  | case1 s hn => simp at hd
  | case2 s label rest hn e hs => exact h.step_error hn hs
  | case3 s label rest hn t hs ih =>
    obtain ⟨done, ht⟩ := h.step_ok hn hs
    exact ih ht hd

/-- The scan with which the placing begins. -/
theorem faithful_initial (o : Operands) (pointer : Pointer) :
    Faithful o [] ⟨o.node.reverse, o.left.reverse, o.right.reverse, pointer, .empty⟩ := by
  refine ⟨rfl, List.nodup_nil, ?_, ?_, ?_, ?_, Dimensions.lists_empty.congr ?_⟩ <;> simp

end Scan

end Contraction
