import Contraction.Proofs.Dimensions.NodeLabels

/-!
# Placing the labels that are summed over

When the labels of the node have been placed, both operands are gone through for the labels that are
left. What carries the two loops is `PlacedUpTo`: the buckets hold every label of the node, and of
those that are summed over the ones that have been seen in the left operand.
-/

namespace Contraction

open Dimensions

/-- The buckets hold the labels of the node and the labels among `seen` that are summed over, and
every label among `seen` belongs to the contraction. -/
structure PlacedUpTo (o : Operands) (seen : List Label) (d : Dimensions) : Prop where
  node : o.NodeCovered
  dims : d.Lists fun kind name => o.HasKind kind (some name) ∧ (kind = .k → some name ∈ seen)
  named : ∀ label ∈ seen, label.IsNamed
  hasKind : ∀ label ∈ seen, ∃ kind, o.HasKind kind label

namespace PlacedUpTo

variable {o : Operands} {seen : List Label} {d : Dimensions} {label : Label} {kind : Kind}

theorem mem_node_of_ne_k (h : o.HasKind kind label) (hk : kind ≠ .k) : label ∈ o.node := by
  cases kind <;> simp_all [Operands.HasKind]

/-- A label of the node that has a kind has been placed. -/
theorem isSome_of_mem_node (h : PlacedUpTo o seen d) (hn : label ∈ o.node)
    (hk : o.HasKind kind label) : (d.kind? label).isSome := by
  obtain ⟨name, rfl, -⟩ := (h.node.named label hn).exists_name
  refine kind?_isSome.mpr ⟨name, rfl, h.dims.mem_labels.mpr ⟨kind, hk, ?_⟩⟩
  rintro rfl
  exact absurd hn hk.1

/-- What has been placed has a name and a kind. -/
theorem named_hasKind_of_isSome (h : PlacedUpTo o seen d) (hs : (d.kind? label).isSome) :
    label.IsNamed ∧ ∃ kind, o.HasKind kind label ∧ (kind = .k → label ∈ seen) := by
  obtain ⟨name, rfl, hm⟩ := kind?_isSome.mp hs
  obtain ⟨kind, hk, hseen⟩ := h.dims.mem_labels.mp hm
  refine ⟨?_, kind, hk, hseen⟩
  by_cases hkk : kind = .k
  · exact h.named _ (hseen hkk)
  · exact h.node.named _ (mem_node_of_ne_k hk hkk)

/-- As long as nothing of the left operand has been seen, what has been placed is of the node. -/
theorem mem_node_of_isSome (h : PlacedUpTo o [] d) (hs : (d.kind? label).isSome) :
    label ∈ o.node := by
  obtain ⟨-, kind, hk, hseen⟩ := h.named_hasKind_of_isSome hs
  refine mem_node_of_ne_k hk ?_
  rintro rfl
  simpa using hseen rfl

/-- A label that has been placed is passed. -/
theorem pass (h : PlacedUpTo o seen d) (hs : (d.kind? label).isSome) :
    PlacedUpTo o (seen ++ [label]) d := by
  obtain ⟨hnamed, kind, hk, hseen⟩ := h.named_hasKind_of_isSome hs
  refine ⟨h.node, h.dims.congr ?_, ?_, ?_⟩
  · intro place name
    refine and_congr_right fun hp => ⟨fun himp he => by simp [himp he], fun himp he => ?_⟩
    rcases List.mem_append.mp (himp he) with hmem | hmem
    · exact hmem
    · obtain rfl := List.mem_singleton.mp hmem
      exact hseen (hk.unique hp ▸ he)
  · exact List.forall_mem_append.mpr ⟨h.named, List.forall_mem_singleton.mpr hnamed⟩
  · exact List.forall_mem_append.mpr ⟨h.hasKind, List.forall_mem_singleton.mpr ⟨kind, hk⟩⟩

/-- A label of both operands that has not been placed is one that is summed over. -/
theorem hasKind_k (h : PlacedUpTo o seen d) (hs : ¬(d.kind? label).isSome) (hl : label ∈ o.left)
    (hr : label ∈ o.right) : o.HasKind .k label :=
  ⟨fun hn => hs (h.isSome_of_mem_node hn (show o.HasKind .c label from ⟨hn, hl, hr⟩)), hl, hr⟩

/-- A new label that is summed over is entered. -/
theorem enter (h : PlacedUpTo o seen d) {d' : Dimensions} {part : Part} (hl : label ∈ o.left)
    (hr : label ∈ o.right) (hs : ¬(d.kind? label).isSome) (he : d.enter part .k label = .ok d') :
    PlacedUpTo o (seen ++ [label]) d' := by
  have hk := h.hasKind_k hs hl hr
  obtain ⟨name, rfl, hname, hnew, rfl⟩ := enter_eq_ok he
  refine ⟨h.node, (h.dims.push hnew).congr ?_, ?_, ?_⟩
  · intro place x
    constructor
    · rintro (⟨rfl, rfl⟩ | ⟨hx, himp⟩)
      · exact ⟨hk, fun _ => by simp⟩
      · exact ⟨hx, fun he => by simp [himp he]⟩
    · rintro ⟨hx, himp⟩
      by_cases hxn : x = name
      · subst hxn
        exact Or.inl ⟨rfl, hx.unique hk⟩
      · refine Or.inr ⟨hx, fun he => ?_⟩
        simpa [hxn] using himp he
  · exact List.forall_mem_append.mpr ⟨h.named, List.forall_mem_singleton.mpr hname⟩
  · exact List.forall_mem_append.mpr ⟨h.hasKind, List.forall_mem_singleton.mpr ⟨.k, hk⟩⟩

/-- A label of one operand alone that has not been placed belongs to no contraction. -/
theorem not_isContraction (h : PlacedUpTo o seen d) (hs : ¬(d.kind? label).isSome)
    (hl : label ∈ o.left ++ o.right) (hboth : ¬(label ∈ o.left ∧ label ∈ o.right)) :
    ¬o.IsContraction := by
  intro hc
  obtain ⟨kind, hk⟩ := hc.exists_hasKind.mpr (by simpa [or_assoc] using Or.inr hl)
  by_cases hn : label ∈ o.node
  · exact hs (h.isSome_of_mem_node hn hk)
  · exact hboth (hc.summed label hl hn)

/-- When the whole left operand has been seen, and the right one has nothing of its own, the labels
are those of a contraction and all of them are in the buckets. -/
theorem finished (h : PlacedUpTo o o.left.reverse d)
    (hright : ∀ x ∈ o.right, x ∈ o.node ∨ x ∈ o.left) :
    o.IsContraction ∧ d.Lists fun kind name => o.HasKind kind (some name) := by
  have hnamed : ∀ x ∈ o.left, x.IsNamed := fun x hx => h.named x (List.mem_reverse.mpr hx)
  have hboth : ∀ x ∈ o.left, x ∉ o.node → x ∈ o.left ∧ x ∈ o.right := by
    intro x hx hxn
    obtain ⟨kind, hk⟩ := h.hasKind x (List.mem_reverse.mpr hx)
    cases kind <;> simp_all [Operands.HasKind]
  refine ⟨⟨h.node.nodup, ?_, h.node.covered, ?_⟩, h.dims.congr ?_⟩
  · refine List.forall_mem_append.mpr ⟨List.forall_mem_append.mpr ⟨h.node.named, hnamed⟩, ?_⟩
    intro x hx
    rcases hright x hx with hn | hl
    · exact h.node.named x hn
    · exact hnamed x hl
  · refine List.forall_mem_append.mpr ⟨hboth, ?_⟩
    intro x hx hxn
    rcases hright x hx with hn | hl
    · exact absurd hn hxn
    · exact hboth x hl hxn
  · intro kind name
    refine ⟨fun hk => hk.1, fun hk => ⟨hk, ?_⟩⟩
    rintro rfl
    exact List.mem_reverse.mpr hk.2.1

end PlacedUpTo

/-! ## The right operand -/

theorem exists_map_eq_ok {ε α β : Type} (f : α → β) (x : Except ε α) :
    (∃ b, x.map f = .ok b) ↔ ∃ a, x = .ok a := by
  cases x <;> simp [Except.map]

/-- The right operand is gone through if each of its labels has been placed or is in the left
one. -/
theorem summedCandidates_isOk {d : Dimensions} {left : List Label} {p : Pointer}
    {labels : List Label} : (∃ candidates, summedCandidates d left p labels = .ok candidates) ↔
      ∀ label ∈ labels, (d.kind? label).isSome ∨ label ∈ left := by
  -- the pointer and the candidates have no part in whether this loop ends well
  induction labels generalizing p with
  | nil => simp [summedCandidates]
  | cons label rest ih =>
    rw [summedCandidates, List.forall_mem_cons]
    by_cases hs : (d.kind? label).isSome
    · simp only [hs, if_true, true_or, true_and]
      exact ih
    · by_cases hl : label ∈ left
      · simp only [hs, hl, List.contains_eq_mem, decide_true, Bool.not_true, Bool.false_eq_true,
          if_false, or_true, true_and]
        split
        · rw [exists_map_eq_ok]
          exact ih
        · exact ih
      · simp [hs, hl]

/-! ## The left operand -/

/-- A label of both operands that has not been placed is entered into one of the two parts. -/
theorem placeSummed_cons {right : List Label} {d : Dimensions} {p : Pointer}
    {candidates rest : List Label} {label : Label} (hs : ¬(d.kind? label).isSome)
    (hr : label ∈ right) : ∃ part next others,
      placeSummed right d p candidates (label :: rest) =
        (d.enter part .k label).bind fun d => placeSummed right d next others rest := by
  rw [placeSummed]
  simp only [hs, hr, List.contains_eq_mem, decide_true, Bool.not_true, Bool.false_eq_true, if_false]
  split
  · exact ⟨.primitive, _, _, rfl⟩
  · exact ⟨.loop, _, _, rfl⟩

variable {o : Operands} {seen labels candidates : List Label} {d d' : Dimensions} {p : Pointer}

theorem PlacedUpTo.placeSummed_ok (h : PlacedUpTo o seen d) (hl : seen ++ labels = o.left.reverse)
    (hp : placeSummed o.right d p candidates labels = .ok d') : PlacedUpTo o o.left.reverse d' := by
  induction labels generalizing seen d p candidates with
  | nil =>
    obtain rfl : d = d' := Except.ok.inj hp
    rw [List.append_nil] at hl
    exact hl ▸ h
  | cons label rest ih =>
    have hleft : label ∈ o.left := List.mem_reverse.mp (hl ▸ by simp)
    have hnext : (seen ++ [label]) ++ rest = o.left.reverse := by simpa using hl
    by_cases hs : (d.kind? label).isSome
    · rw [placeSummed, if_pos hs] at hp
      exact ih (h.pass hs) hnext hp
    · by_cases hr : label ∈ o.right
      · obtain ⟨part, next, others, heq⟩ := placeSummed_cons hs hr
        rw [heq] at hp
        cases he : d.enter part .k label with
        | error fault => simp [he, Except.bind] at hp
        | ok d₁ => exact ih (h.enter hleft hr hs he) hnext (by simpa [he, Except.bind] using hp)
      · simp [placeSummed, hs, hr] at hp

theorem PlacedUpTo.placeSummed_error {fault : ClassFault} (h : PlacedUpTo o seen d)
    (hl : seen ++ labels = o.left.reverse)
    (hp : placeSummed o.right d p candidates labels = .error fault) : ¬o.IsContraction := by
  induction labels generalizing seen d p candidates with
  | nil => simp [placeSummed] at hp
  | cons label rest ih =>
    have hleft : label ∈ o.left := List.mem_reverse.mp (hl ▸ by simp)
    have hnext : (seen ++ [label]) ++ rest = o.left.reverse := by simpa using hl
    by_cases hs : (d.kind? label).isSome
    · rw [placeSummed, if_pos hs] at hp
      exact ih (h.pass hs) hnext hp
    · by_cases hr : label ∈ o.right
      · obtain ⟨part, next, others, heq⟩ := placeSummed_cons hs hr
        rw [heq] at hp
        cases he : d.enter part .k label with
        | ok d₁ => exact ih (h.enter hleft hr hs he) hnext (by simpa [he, Except.bind] using hp)
        | error fault =>
          intro hc
          rcases enter_eq_error he with hnamed | ⟨name, rfl, hm⟩
          · exact hnamed (hc.named label (by simp [hleft]))
          · exact hs (kind?_isSome.mpr ⟨name, rfl, hm⟩)
      · exact h.not_isContraction hs (by simp [hleft]) fun hboth => hr hboth.2

end Contraction
