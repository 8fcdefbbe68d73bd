import Contraction.Proofs.Measurement.Sizing

/-!
# Counts where labels have size zero

A measurement takes a size of zero like any other. It leaves the bytes that a contraction moves a
count, but not its operations: the formula takes away one addition for each element of the node's
tensor, since a sum of some products needs one addition less than there are products. Where the
label summed over has size zero there is no product, and what is taken away is below zero. This is
so at exactly the nodes of `Operands.SumsNothing`, and without one of them the total is a count of
which each contraction has a share (`Branch.counts_of_measured`).
-/

namespace Contraction

namespace Operands

variable {size : Label → Int} {o : Operands}

/-- The node's tensor has elements, and they are sums of no products: a label that is summed over
has size zero. -/
def SumsNothing (size : Label → Int) (o : Operands) : Prop :=
  (∀ label ∈ o.node, size label ≠ 0) ∧ ∃ label, o.HasKind .k label ∧ size label = 0

theorem sumsNothing_iff : o.SumsNothing size ↔ o.nodeVolume size ≠ 0 ∧ o.extent size .k = 0 := by
  rw [SumsNothing, nodeVolume, extent, Finset.prod_ne_zero_iff, Finset.prod_eq_zero_iff]
  simp only [List.mem_toFinset, mem_labelsOf]

variable (h : ∀ label ∈ o.node ++ o.left ++ o.right, 0 ≤ size label)

include h

theorem nodeVolume_nonneg : 0 ≤ o.nodeVolume size := by
  refine Finset.prod_nonneg fun label hlabel => h label ?_
  simp [List.mem_toFinset.mp hlabel]

theorem extent_nonneg (kind : Kind) : 0 ≤ o.extent size kind :=
  Finset.prod_nonneg fun label hlabel => h label (mem_of_mem_labelsOf hlabel)

theorem accessCount_nonneg : 0 ≤ o.accessCount size := by
  have hleft := Int.mul_nonneg (extent_nonneg h .n) (extent_nonneg h .k)
  have hright := Int.mul_nonneg (extent_nonneg h .m) (extent_nonneg h .k)
  have hnode := nodeVolume_nonneg h
  rw [accessCount]
  omega

/-- The operations are a count unless every element is a sum of no products. -/
theorem operationCount_nonneg_iff : 0 ≤ o.operationCount size ↔ ¬o.SumsNothing size := by
  have hnode := nodeVolume_nonneg h
  have hsummed := extent_nonneg h .k
  rw [sumsNothing_iff, operationCount_eq]
  by_cases hk : o.extent size .k = 0
  · rw [hk]
    omega
  · have hodd : 0 ≤ 2 * o.extent size .k - 1 := by omega
    exact ⟨fun _ hnothing => hk hnothing.2, fun _ => Int.mul_nonneg hnode hodd⟩

end Operands

namespace Branch

/-- The total is that of the contractions that are left. -/
theorem Measured.operations_after {size : Label → Int} {elementBytes : Int} {b after : Branch}
    {totals : Totals} (h : Measured size elementBytes b totals after)
    (hsound : totals.faulty = []) : totals.operations =
      ((after.postorder.filter isContraction).map fun n => n.operands.operationCount size).sum := by
  have hcounts : ∀ b : Branch, ((b.withoutMeasures.postorder.filter isContraction).map
      fun n => n.operands.operationCount size) =
        (b.postorder.filter isContraction).map fun n => n.operands.operationCount size := by
    intro b
    simp [List.filter_map, Function.comp_def]
  rw [h.operations hsound, ← hcounts b, ← h.sameTree, hcounts]

/-- A measurement by sizes that are not negative, which finds no node faulty, leaves at every
contraction a count of the bytes moved. Its operations are a count if and only if not every element
of its tensor is a sum of no products. If there is no contraction of that kind, the total is a count
too, and no contraction does more than that. -/
theorem counts_of_measured (sizes : Table Datum) (settings : Settings) (config : Config)
    (b : Branch) (totals : Totals) (hc : settings.check = .ok config)
    (hsizes : b.AllLabels fun label =>
      ∃ n, Sizing.ofTable sizes (.int config.defaultSize) label = .ok n ∧ 0 ≤ n)
    (h : (b.measure sizes settings).outcome = .ok totals) (hsound : totals.faulty = []) :
    let size := (Sizing.ofTable sizes (.int config.defaultSize)).value
    let after := (b.measure sizes settings).branch
    (∀ e l r, node e l r ∈ after.postorder → (node e l r).isContraction →
      ∃ operations byteAccesses, e.measures.operations = some operations ∧
        e.measures.byteAccesses = some byteAccesses ∧ 0 ≤ byteAccesses ∧
        (0 ≤ operations ↔ ¬(node e l r).operands.SumsNothing size)) ∧
    ((∀ n ∈ after.postorder, n.isContraction → ¬n.operands.SumsNothing size) →
      0 ≤ totals.operations ∧
      ∀ e l r operations, node e l r ∈ after.postorder → e.measures.operations = some operations →
        operations ≤ totals.operations) := by
  intro size after
  have hm : Measured size config.elementBytes b totals after := measured_of_measure hc h
  have hlabels : after.Every fun _ pair => ∀ o, pair = some o →
      ∀ label ∈ o.node ++ o.left ++ o.right, 0 ≤ size label := by
    have hvalues : b.AllLabels fun label => 0 ≤ size label := by
      intro e he label hlabel
      obtain ⟨n, hn, hnonneg⟩ := hsizes e he label hlabel
      show 0 ≤ ((Sizing.ofTable sizes (.int config.defaultSize)) label).toOption.getD 0
      rw [hn]
      exact hnonneg
    have hafter := hvalues.of_tensorsFrom (tensorsFrom_of_withoutMeasures_eq hm.sameTree)
    exact fun e l r hn => (hafter.every e l r hn).2
  refine ⟨fun e l r hn hbinary => ?_, fun hsummed => ?_⟩
  · obtain ⟨hoperations, haccesses⟩ := hm.costs hsound e l r hn
    rw [if_pos hbinary] at hoperations haccesses
    have hnode := hlabels e l r hn _ (paired?_of_isContraction hbinary)
    exact ⟨_, _, hoperations, haccesses, Operands.accessCount_nonneg hnode,
      Operands.operationCount_nonneg_iff hnode⟩
  · have hcounts : ∀ count ∈ (after.postorder.filter isContraction).map
        (fun n => n.operands.operationCount size), 0 ≤ count := by
      refine List.forall_mem_map.mpr fun n hn => ?_
      obtain ⟨hn, hbinary⟩ := List.mem_filter.mp hn
      cases n with
      | absent => cases hbinary
      | node e l r =>
        have hnode := hlabels e l r hn _ (paired?_of_isContraction hbinary)
        exact (Operands.operationCount_nonneg_iff hnode).mpr (hsummed _ hn hbinary)
    rw [hm.operations_after hsound]
    refine ⟨List.sum_nonneg hcounts, fun e l r operations hn hoperations => ?_⟩
    obtain ⟨hbinary, hcount⟩ := Option.ite_none_right_eq_some.mp
      ((hm.costs hsound e l r hn).1.symm.trans hoperations)
    exact List.single_le_sum hcounts _
      (List.mem_map.mpr ⟨_, List.mem_filter.mpr ⟨hn, hbinary⟩, Option.some.inj hcount⟩)

/-- A product that has no rows moves the bytes of one operand, and does nothing with them. -/
theorem counts_of_measured_no_rows :
    let sizes : Table Datum := ⟨[("m", .int 0), ("k", .int 5), ("n", .int 3)]⟩
    let b : Branch := node { id := "c", labels := [some "m", some "n"] }
      (node { id := "a", labels := [some "m", some "k"] } absent absent)
      (node { id := "b", labels := [some "k", some "n"] } absent absent)
    let after := (b.measure sizes {}).branch
    ∃ totals, (b.measure sizes {}).outcome = .ok totals ∧ totals.faulty = [] ∧
      0 ≤ totals.operations ∧
      ∀ e l r, node e l r ∈ after.postorder → (node e l r).isContraction →
        ∃ operations byteAccesses, e.measures.operations = some operations ∧
          e.measures.byteAccesses = some byteAccesses ∧ 0 ≤ byteAccesses ∧
          0 ≤ operations ∧ operations ≤ totals.operations := by
  intro sizes b after
  have hc : ({} : Settings).check = .ok ({} : Config) := by cbv
  let counts := fun label =>
    ∃ n, Sizing.ofTable sizes (.int defaultIndexSize) label = .ok n ∧ 0 ≤ n
  have hm : counts (some "m") := ⟨0, by cbv, by decide⟩
  have hk : counts (some "k") := ⟨5, by cbv, by decide⟩
  have hn : counts (some "n") := ⟨3, by cbv, by decide⟩
  have hsizes : b.AllLabels counts := by
    simp [b, allLabels_node, allLabels_absent, hm, hk, hn]
  obtain ⟨totals, hok, hfaulty⟩ := exists_ok_of_any
    (show (b.measure sizes {}).outcome.toOption.any (·.faulty.isEmpty) = true by decide +kernel)
  have hsound : totals.faulty = [] := List.isEmpty_iff.mp hfaulty
  obtain ⟨hnodes, htotal⟩ := counts_of_measured sizes {} {} b totals hc hsizes hok hsound
  have hrows : ∀ n ∈ after.postorder, n.isContraction → some "m" ∈ n.labels := by
    have hall : (after.postorder.all fun n => !n.isContraction || n.labels.contains (some "m")) =
        true := by decide +kernel
    intro n hn hbinary
    have htest := List.all_eq_true.mp hall n hn
    rw [hbinary] at htest
    exact List.contains_iff_mem.mp htest
  have hsummed : ∀ n ∈ after.postorder, n.isContraction →
      ¬n.operands.SumsNothing (Sizing.ofTable sizes (.int defaultIndexSize)).value :=
    fun n hn hbinary hnothing => hnothing.1 (some "m") (hrows n hn hbinary) (by cbv)
  obtain ⟨hnonneg, hshare⟩ := htotal hsummed
  refine ⟨totals, hok, hsound, hnonneg, fun e l r hn hbinary => ?_⟩
  obtain ⟨operations, byteAccesses, hoperations, haccesses, hmoved, hiff⟩ := hnodes e l r hn hbinary
  exact ⟨operations, byteAccesses, hoperations, haccesses, hmoved,
    hiff.mpr (hsummed _ hn hbinary), hshare e l r operations hn hoperations⟩

/-- A product over a label of size zero has elements that are sums of nothing, and comes to less
than no operations. -/
theorem counts_of_measured_fails :
    let sizes : Table Datum := ⟨[("k", .int 0)]⟩
    let b : Branch := node { id := "c", labels := [some "i", some "j"] }
      (node { id := "a", labels := [some "i", some "k"] } absent absent)
      (node { id := "b", labels := [some "k", some "j"] } absent absent)
    b.AllLabels (fun label => ∃ n, Sizing.ofTable sizes (.int defaultIndexSize) label = .ok n ∧
      0 ≤ n) ∧
      ∃ totals, (b.measure sizes {}).outcome = .ok totals ∧ totals.faulty = [] ∧
        totals.operations = -4 ∧
        (b.measure sizes {}).branch.entry?.bind (·.measures.operations) = some (-4) := by
  intro sizes b
  have hi : ∃ n, Sizing.ofTable sizes (.int defaultIndexSize) (some "i") = .ok n ∧ 0 ≤ n :=
    ⟨2, by cbv, by decide⟩
  have hj : ∃ n, Sizing.ofTable sizes (.int defaultIndexSize) (some "j") = .ok n ∧ 0 ≤ n :=
    ⟨2, by cbv, by decide⟩
  have hk : ∃ n, Sizing.ofTable sizes (.int defaultIndexSize) (some "k") = .ok n ∧ 0 ≤ n :=
    ⟨0, by cbv, by decide⟩
  obtain ⟨totals, hok, htotals⟩ := exists_ok_of_any
    (show (b.measure sizes {}).outcome.toOption.any
      (fun totals => totals.faulty.isEmpty && totals.operations == -4) = true by decide +kernel)
  obtain ⟨hfaulty, hoperations⟩ := (Bool.and_eq_true _ _).mp htotals
  refine ⟨?_, totals, hok, List.isEmpty_iff.mp hfaulty, eq_of_beq hoperations, by decide +kernel⟩
  simp [b, allLabels_node, allLabels_absent, hi, hj, hk]

end Branch

end Contraction
