import Contraction.Proofs.Branch.Labels
import Contraction.Proofs.Except
import Contraction.Proofs.Measurement.ClosedForm

/-!
# The sizes that a measurement looks at

A table of sizes may hold anything, for labels of the branch and for others. A measurement looks
only at the labels that are there, and since it goes over the tensors first, it comes to its end
only if all of these have integers. It is then one of those by sizes that never fail.

* `measureUnder_keeps` — a measurement leaves all but the measures alone, also where it stops
* `measureBy_congr_sizing` — a measurement depends on the sizes of the labels of the branch alone
* `measureBy_total` — what comes to its end is a measurement by integers
* `measured_of_measure` — which decide what it leaves
* `exists_figures_of_measured` — and so is that of every branch that has no other labels
-/

namespace Contraction

variable {sizing sizing' : Sizing} {elementBytes : Int}

/-- The integer that a label has, if it has one. -/
def Sizing.value (sizing : Sizing) (label : Label) : Int :=
  (sizing label).toOption.getD 0

theorem Sizing.product_congr {labels : List Label}
    (h : ∀ label ∈ labels, sizing label = sizing' label) :
    sizing.product labels = sizing'.product labels := by
  rw [Sizing.product, Sizing.product, mapM_congr_left h]

theorem Dimensions.extents_congr {d : Dimensions}
    (h : ∀ name ∈ d.labels, sizing (some name) = sizing' (some name)) :
    d.extents sizing = d.extents sizing' := by
  have hkind : ∀ kind, sizing.product ((d.ofKind kind).map some) =
      sizing'.product ((d.ofKind kind).map some) := by
    intro kind
    refine Sizing.product_congr fun label hlabel => ?_
    obtain ⟨name, hname, rfl⟩ := List.mem_map.mp hlabel
    exact h name (mem_labels.mpr ⟨kind, hname⟩)
  simp only [extents, hkind]

namespace Branch

variable {b l r : Branch} {e : Entry} {totals : Totals} {sizes : Table Datum}
  {settings : Settings}

/-! ## Visits -/

theorem visitSize_congr (h : ∀ label ∈ e.labels, sizing label = sizing' label) (s : Unit) :
    visitSize sizing elementBytes s e l r = visitSize sizing' elementBytes s e l r := by
  rw [visitSize, visitSize, Sizing.product_congr h]

theorem visitOperations_congr (h : ∀ o, (node e l r).paired? = some o →
      ∀ label ∈ o.node ++ o.left ++ o.right, sizing label = sizing' label) (s : Survey) :
    visitOperations sizing elementBytes s e l r = visitOperations sizing' elementBytes s e l r := by
  rw [visitOperations, visitOperations]
  split
  · rfl
  · next hchildren =>
    split
    · rfl
    · next d hd =>
      -- the buckets hold labels of the node and of its children
      obtain ⟨hc, hlists⟩ := Operands.dimensions_ok hd
      have hextents : d.extents sizing = d.extents sizing' := by
        refine Dimensions.extents_congr fun name hname => ?_
        exact h _ (paired?_of_children hchildren) _
          (hc.exists_hasKind.mp (hlists.mem_labels.mp hname))
      rw [hextents]

theorem visitSize_keeps (sizing : Sizing) (elementBytes : Int) (s : Unit) (e : Entry)
    (l r : Branch) :
    (visitSize sizing elementBytes s e l r).2.1.withoutMeasures = e.withoutMeasures := by
  rw [visitSize]
  split <;> rfl

theorem measureSizes_keeps (sizing : Sizing) (elementBytes : Int) (b : Branch) :
    (b.measureSizes sizing elementBytes).1.withoutMeasures = b.withoutMeasures := by
  have hkept := sweep_keeps (visitSize_keeps sizing elementBytes) () b
  rw [measureSizes]
  split
  · next hsweep =>
    rw [hsweep] at hkept
    exact hkept
  · next hsweep =>
    rw [hsweep] at hkept
    dsimp only
    split
    · exact (withoutMeasures_mapEntries (withoutMeasures_setSizeShares _ _) _).trans hkept
    · exact hkept

/-! ## Measurements that may stop -/

theorem shareOperations_keeps (total : Int) (b : Branch) :
    (b.shareOperations total).1.withoutMeasures = b.withoutMeasures := by
  unfold shareOperations
  dsimp only
  generalize (if 0 < total then Number.Binary64.ofInt total else .zero) = whole
  split
  · exact withoutMeasures_mapEntries (withoutMeasures_setOperationShares _ _) b
  · rfl

theorem measureOperations_keeps (b : Branch) :
    (b.measureOperations sizing elementBytes).branch.withoutMeasures = b.withoutMeasures := by
  have hkept : (sweep (visitOperations sizing elementBytes) {} b).2.1.withoutMeasures =
      b.withoutMeasures := sweep_keeps (visitOperations_keeps sizing) {} b
  unfold measureOperations
  rcases hsweep : sweep (visitOperations sizing elementBytes) {} b with
    ⟨survey, swept, _ | fault⟩
  · rw [hsweep] at hkept
    dsimp only at hkept ⊢
    have htotal := (setTotal_keeps survey.totals.operations swept).trans hkept
    split
    · split
      · exact htotal
      · have hshares := (shareOperations_keeps survey.totals.operations
          (swept.setTotal survey.totals.operations)).trans htotal
        split
        · next hshared =>
          rw [hshared] at hshares
          exact hshares
        · next hshared =>
          rw [hshared] at hshares
          exact hshares
    · exact (withoutMeasures_withoutOperations swept).trans hkept
  · rw [hsweep] at hkept
    exact hkept

/-- A measurement leaves all but the measures alone, also where it stops. -/
theorem measureUnder_keeps (sizes : Table Datum) (config : Config) (b : Branch) :
    (b.measureUnder sizes config).branch.withoutMeasures = b.withoutMeasures := by
  rw [measureUnder_eq, measureBy]
  split
  · rfl
  · have hkept := (measureSizes_keeps (.ofTable sizes (.int config.defaultSize))
      config.elementBytes b.withoutOperations).trans (withoutMeasures_withoutOperations b)
    split
    · next hsized =>
      rw [hsized] at hkept
      exact hkept
    · next hsized =>
      rw [hsized] at hkept
      exact (measureOperations_keeps _).trans hkept

/-! ## Measurements that come to their end -/

/-- A measurement does not look at the sizes of labels that are not there. -/
theorem measureBy_congr_sizing (h : b.AllLabels fun label => sizing label = sizing' label) :
    b.measureBy sizing elementBytes = b.measureBy sizing' elementBytes := by
  have hcleared : b.withoutOperations.AllLabels fun label => sizing label = sizing' label :=
    h.of_tensorsFrom (tensorsFrom_of_withoutMeasures_eq (withoutMeasures_withoutOperations b))
  have hsizes : b.withoutOperations.measureSizes sizing elementBytes =
      b.withoutOperations.measureSizes sizing' elementBytes := by
    rw [measureSizes, measureSizes, sweep_congr (visitSize_keeps sizing elementBytes)
      (fun s e l r he => visitSize_congr he.1 s) hcleared.every]
  rw [measureBy, measureBy, ← hsizes]
  split
  · rfl
  · have hkept := measureSizes_keeps sizing elementBytes b.withoutOperations
    split
    · rfl
    · next sized hsized =>
      rw [hsized] at hkept
      have hlabels : sized.AllLabels fun label => sizing label = sizing' label :=
        hcleared.of_tensorsFrom (tensorsFrom_of_withoutMeasures_eq hkept)
      rw [measureOperations, measureOperations, sweep_congr (visitOperations_keeps sizing)
        (fun s e l r he => visitOperations_congr he.2 s) hlabels.every]

/-- A sweep over the tensors that reaches the top has found an integer for every label. -/
theorem allLabels_of_sweep {s s' : Unit} {swept : Branch}
    (h : sweep (visitSize sizing elementBytes) s b = (s', swept, none)) :
    b.AllLabels fun label => ∃ n, sizing label = .ok n := by
  induction b generalizing s s' swept with
  | absent => exact allLabels_absent
  | node e l r ihl ihr =>
    obtain ⟨sl, l', sr, r', e', hl, hr, hvisit, -⟩ := sweep_node h
    refine allLabels_node.mpr ⟨fun label hlabel => ?_, ihl hl, ihr hr⟩
    rw [visitSize] at hvisit
    split at hvisit
    · cases hvisit
    · next elements helements =>
      obtain ⟨sizes, hsizes, -⟩ := except_map_eq_ok.mp helements
      obtain ⟨n, -, hn⟩ := (mem_of_mapM_eq_ok hsizes).1 label hlabel
      exact ⟨n, hn⟩

/-- So has a measurement that comes to its end. -/
theorem allLabels_of_measured (h : (b.measureBy sizing elementBytes).outcome = .ok totals) :
    b.AllLabels fun label => ∃ n, sizing label = .ok n := by
  cases b with
  | absent => exact allLabels_absent
  | node e l r =>
    rw [measureBy, if_neg (by simp [isAbsent]), measureSizes] at h
    rcases hsweep : sweep (visitSize sizing elementBytes) () (node e l r).withoutOperations with
      ⟨s, swept, _ | fault⟩
    · exact (allLabels_of_sweep hsweep).of_tensorsFrom (tensorsFrom_of_withoutMeasures_eq
        (withoutMeasures_withoutOperations _).symm)
    · rw [hsweep] at h
      cases h

/-- A measurement that finds integers is one by sizes that never fail. -/
theorem measureBy_total (h : b.AllLabels fun label => ∃ n, sizing label = .ok n) :
    b.measureBy sizing elementBytes =
      b.measureBy (fun label => .ok (sizing.value label)) elementBytes := by
  refine measureBy_congr_sizing fun e he label hlabel => ?_
  obtain ⟨n, hn⟩ := h e he label hlabel
  rw [Sizing.value, hn]
  rfl

/-- Under settings that can be used, a measurement is one by the sizes of the table. -/
theorem measure_eq {config : Config} (hc : settings.check = .ok config) (sizes : Table Datum)
    (b : Branch) : b.measure sizes settings =
      b.measureBy (.ofTable sizes (.int config.defaultSize)) config.elementBytes := by
  rw [measure, hc]
  rfl

/-- What a measurement that comes to its end leaves follows from the integers that it has found. -/
theorem measured_of_measure {config : Config} (hc : settings.check = .ok config)
    (h : (b.measure sizes settings).outcome = .ok totals) :
    Measured (Sizing.ofTable sizes (.int config.defaultSize)).value config.elementBytes b totals
      (b.measure sizes settings).branch := by
  rw [measure_eq hc] at h ⊢
  have htotal : b.measureBy _ config.elementBytes = _ := measureBy_total (allLabels_of_measured h)
  rw [htotal] at h ⊢
  exact measureBy_ok h

/-- A measurement that comes to its end found integers for all labels. With these, what any branch
comes to that has no other labels follows from its figures. -/
theorem exists_figures_of_measured (h : (b.measure sizes settings).outcome = .ok totals) :
    ∃ (size : Label → Int) (elementBytes : Int),
      InRange elementBytes (b.figures size elementBytes) ∧
      ∀ b' : Branch, (∀ P, b.AllLabels P → b'.AllLabels P) →
        InRange elementBytes (b'.figures size elementBytes) →
        (b'.measure sizes settings).outcome =
            .ok (Totals.ofFigures (b'.figures size elementBytes)).settled ∧
          (b'.measure sizes settings).branch = b'.settled size elementBytes := by
  obtain ⟨config, hconfig⟩ : ∃ config, settings.check = .ok config := by
    rw [measure] at h
    split at h
    · cases h
    · next config hconfig => exact ⟨config, hconfig⟩
  rw [measure_eq hconfig] at h
  have hlabels := allLabels_of_measured h
  rw [measureBy_total hlabels] at h
  refine ⟨_, _, inRange_of_measured h, fun b' hfrom hrange => ?_⟩
  rw [measure_eq hconfig, measureBy_total (hfrom _ hlabels)]
  exact measureBy_of_inRange hrange

end Branch

end Contraction
