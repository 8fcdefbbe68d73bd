import Contraction.Proofs.Dimensions.SummedLabels

/-!
# What placing does

Placing succeeds exactly on the labels of a contraction, and then every label is in one bucket,
once, and its kind is the one that the three lists give it. In which part of the kind a label stands
depends on the order of the lists; that it stands there does not.
-/

namespace Contraction

namespace Operands

variable {o : Operands} {d : Dimensions}

/-- After the loop over the node, nothing that is summed over has been seen. -/
theorem placedUpTo_node (hn : o.NodeCovered)
    (hd : d.Lists fun kind name => kind ≠ .k ∧ o.HasKind kind (some name)) :
    PlacedUpTo o [] d := by
  refine ⟨hn, hd.congr ?_, by simp, by simp⟩
  intro kind name
  simp [and_comm]

theorem placeAll_ok (h : o.placeAll = .ok d) :
    o.IsContraction ∧ d.Lists fun kind name => o.HasKind kind (some name) := by
  unfold placeAll at h
  cases hn : Scan.placeNode ⟨o.node.reverse, o.left.reverse, o.right.reverse,
      ⟨.c, .nothing⟩, .empty⟩ with
  | error fault => simp [hn, bind, Except.bind] at h
  | ok placed =>
    cases hc : summedCandidates placed o.left .atStart o.right.reverse with
    | error fault => simp [hn, hc, bind, Except.bind] at h
    | ok candidates =>
      simp only [hn, hc, bind, Except.bind] at h
      obtain ⟨hcovered, hlists⟩ := (Scan.faithful_initial o _).placeNode_ok hn
      have hplaced := placedUpTo_node hcovered hlists
      have hright := summedCandidates_isOk.mp ⟨candidates, hc⟩
      -- the right operand has been gone through before the left one, when only the node was placed
      have hend := hplaced.placeSummed_ok (by simp) h
      refine hend.finished fun x hx => ?_
      rcases hright x (List.mem_reverse.mpr hx) with hs | hl
      · exact Or.inl (hplaced.mem_node_of_isSome hs)
      · exact Or.inr hl

theorem placeAll_error {fault : ClassFault} (h : o.placeAll = .error fault) :
    ¬o.IsContraction := by
  unfold placeAll at h
  cases hn : Scan.placeNode ⟨o.node.reverse, o.left.reverse, o.right.reverse,
      ⟨.c, .nothing⟩, .empty⟩ with
  | error fault => exact fun hc => (Scan.faithful_initial o _).placeNode_error hn hc.nodeCovered
  | ok placed =>
    obtain ⟨hcovered, hlists⟩ := (Scan.faithful_initial o _).placeNode_ok hn
    have hplaced := placedUpTo_node hcovered hlists
    cases hc : summedCandidates placed o.left .atStart o.right.reverse with
    | ok candidates =>
      simp only [hn, hc, bind, Except.bind] at h
      exact hplaced.placeSummed_error (by simp) h
    | error fault =>
      -- some label of the right operand has not been placed and is not in the left one
      have hno : ¬∀ x ∈ o.right.reverse, (placed.kind? x).isSome ∨ x ∈ o.left := by
        rw [← summedCandidates_isOk (p := .atStart), hc]
        simp
      simp only [List.mem_reverse, not_forall, not_or] at hno
      obtain ⟨x, hx, hs, hl⟩ := hno
      exact hplaced.not_isContraction hs (by simp [hx]) fun hboth => hl hboth.1

theorem dimensions_ok (h : o.dimensions = .ok d) :
    o.IsContraction ∧ d.Lists fun kind name => o.HasKind kind (some name) := by
  unfold dimensions at h
  split at h
  · next hp => exact placeAll_ok (Except.ok.inj h ▸ hp)
  · simp at h

theorem dimensions_error {e : Unclassified} (h : o.dimensions = .error e) :
    ¬o.IsContraction ∧ e.operands = some o := by
  unfold dimensions at h
  split at h
  · simp at h
  · next fault hp =>
    obtain rfl := Except.error.inj h
    exact ⟨placeAll_error hp, rfl⟩

/-- Placing succeeds exactly on a contraction. -/
theorem dimensions_isOk : (∃ d, o.dimensions = .ok d) ↔ o.IsContraction := by
  constructor
  · rintro ⟨d, h⟩
    exact (dimensions_ok h).1
  · intro hc
    cases h : o.dimensions with
    | ok d => exact ⟨d, rfl⟩
    | error e => exact absurd hc (dimensions_error h).1

end Operands

/-- The kind found for a label is the one under which it is listed. -/
theorem Dimensions.Lists.kind?_eq_some {o : Operands} {d : Dimensions}
    (h : d.Lists fun kind name => o.HasKind kind (some name)) (hc : o.IsContraction)
    {kind : Kind} {label : Label} : d.kind? label = some kind ↔ o.HasKind kind label := by
  constructor
  · intro hk
    obtain ⟨name, rfl, hm⟩ := kind?_mem hk
    exact (h.mem_ofKind kind name).mp hm
  · intro hk
    obtain ⟨name, rfl, -⟩ := (hc.named label (hc.exists_hasKind.mp ⟨kind, hk⟩)).exists_name
    have hs : (d.kind? (some name)).isSome :=
      kind?_isSome.mpr ⟨name, rfl, h.mem_labels.mpr ⟨kind, hk⟩⟩
    obtain ⟨other, ho⟩ := Option.isSome_iff_exists.mp hs
    obtain ⟨_, hn, hm⟩ := kind?_mem ho
    obtain rfl := Option.some.inj hn
    rw [ho, ((h.mem_ofKind other name).mp hm).unique hk]

/-- Each label of the three lists is in one bucket, once. -/
theorem Dimensions.Lists.count_labels {o : Operands} {d : Dimensions}
    (h : d.Lists fun kind name => o.HasKind kind (some name)) (hc : o.IsContraction)
    (name : String) :
    d.labels.count name = if some name ∈ o.node ++ o.left ++ o.right then 1 else 0 := by
  have hm : name ∈ d.labels ↔ some name ∈ o.node ++ o.left ++ o.right :=
    h.mem_labels.trans hc.exists_hasKind
  split
  · next hin => exact List.count_eq_one_of_mem h.nodup (hm.mpr hin)
  · next hout => exact List.count_eq_zero.mpr (fun hin => hout (hm.mp hin))

/-- Three lists of labels, any of which may be missing, are divided exactly if they make a
contraction, and else refused with the lists themselves. Each label is then in one of the eight
buckets, once, and its kind says which of the lists have it. -/
theorem Operands.dimensions_ofGiven (node left right : Option (List Label)) :
    ((∃ d, (ofGiven node left right).dimensions = .ok d) ↔
      (ofGiven node left right).IsContraction) ∧
    (¬(ofGiven node left right).IsContraction →
      ∃ fault, (ofGiven node left right).dimensions =
        .error ⟨fault, some (ofGiven node left right)⟩) ∧
    ∀ d, (ofGiven node left right).dimensions = .ok d →
      (∀ name, d.labels.count name =
        if some name ∈ node.getD [] ++ left.getD [] ++ right.getD [] then 1 else 0) ∧
      (∀ kind name, name ∈ d.ofKind kind ↔ (ofGiven node left right).HasKind kind (some name)) ∧
      ∀ kind label, d.kind? label = some kind ↔ (ofGiven node left right).HasKind kind label := by
  refine ⟨dimensions_isOk, ?_, ?_⟩
  · intro hno
    cases h : (ofGiven node left right).dimensions with
    | ok d => exact absurd (dimensions_ok h).1 hno
    | error e =>
      obtain ⟨fault, operands⟩ := e
      obtain rfl : operands = _ := (dimensions_error h).2
      exact ⟨fault, rfl⟩
  · intro d h
    obtain ⟨hc, hd⟩ := dimensions_ok h
    exact ⟨hd.count_labels hc, hd.mem_ofKind, fun kind label => hd.kind?_eq_some hc⟩

/-- A contraction whose summed labels stand in different orders in its operands is divided; a node
with labels and without operands is refused. -/
theorem Operands.dimensions_ofGiven_reordered :
    (∃ d, (ofGiven (some [some "m", some "n"]) (some [some "k", some "l", some "m", some "k"])
        (some [some "n", some "l", some "k"])).dimensions = .ok d ∧
      d.labels.count "k" = 1 ∧ "l" ∈ d.ofKind .k ∧ d.kind? (some "m") = some .m) ∧
    ∃ fault, (ofGiven (some [some "m"]) none none).dimensions =
      .error ⟨fault, some (ofGiven (some [some "m"]) none none)⟩ := by
  constructor
  · obtain ⟨hiff, -, hall⟩ := dimensions_ofGiven (some [some "m", some "n"])
      (some [some "k", some "l", some "m", some "k"]) (some [some "n", some "l", some "k"])
    obtain ⟨d, hd⟩ := hiff.mpr (by decide)
    obtain ⟨hcount, hmem, hkind⟩ := hall d hd
    exact ⟨d, hd, hcount "k", (hmem .k "l").mpr (by decide), (hkind .m (some "m")).mpr (by decide)⟩
  · exact (dimensions_ofGiven (some [some "m"]) none none).2.1 (by decide)

end Contraction
