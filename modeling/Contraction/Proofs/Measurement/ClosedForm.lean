import Contraction.Proofs.Measurement.Figures
import Contraction.Proofs.Measurement.Measured

/-!
# A measurement by its figures

A measurement goes over a branch four times and may stop on the way. Where all labels have sizes, it
comes to its end exactly if the numbers of the figures are in range; totals and measures are then
those that follow from the figures. What the nodes carried before does not matter.

* `inRange_of_measured` — a measurement that comes to its end had all numbers in range
* `measureBy_of_inRange` — what a measurement leaves if they are
-/

namespace Contraction

open Number

namespace Branch

variable {size : Label → Int} {elementBytes : Int} {b b' sized swept : Branch} {e e' : Entry}
  {l r : Branch} {totals : Totals} {scale : Scale} {s s' survey : Survey}

/-! ## Sizes -/

/-- The bytes of all tensors as numbers. -/
def sizeNumbers (size : Label → Int) (elementBytes : Int) (b : Branch) : List Binary64 :=
  (b.figures size elementBytes).map fun f => Binary64.ofInt f.bytes

/-- The branch after its sizes have been set. -/
def setSizes (size : Label → Int) (elementBytes : Int) (b : Branch) : Branch :=
  (b.withoutOperations.mapEntries (setTensorSize size elementBytes)).mapEntries
    (setSizeShares (Binary64.sum (b.sizeNumbers size elementBytes))
      (Binary64.spanOf (b.sizeNumbers size elementBytes)))

theorem every_setTensorSize (b : Branch) :
    (b.withoutOperations.mapEntries (setTensorSize size elementBytes)).Every fun e pair =>
      e.measures.withoutOperations = e.measures ∧
        e.measures.tensorSize = some (e.figure size elementBytes pair).bytes := by
  refine (every_withoutOperations b).mapEntries (fun e => rfl) fun e pair he => ⟨?_, rfl⟩
  rw [setTensorSize, ← he]
  rfl

theorem withoutMeasures_setTensorSize (b : Branch) :
    (b.withoutOperations.mapEntries (setTensorSize size elementBytes)).withoutMeasures =
      b.withoutMeasures := by
  rw [withoutMeasures_mapEntries (f := setTensorSize size elementBytes) fun e => rfl,
    withoutMeasures_withoutOperations]

theorem tensorSizes_setTensorSize (b : Branch) :
    (b.withoutOperations.mapEntries (setTensorSize size elementBytes)).tensorSizes =
      (b.figures size elementBytes).map Figure.bytes := by
  rw [tensorSizes, filterMap_measure Measures.tensorSize (fun f => some f.bytes)
    fun e l r hn => (every_setTensorSize b e l r hn).2, List.filterMap_eq_map',
    figures_congr (withoutMeasures_setTensorSize b)]

/-- Sizes are set if all of them are in range. -/
theorem measureSizes_eq (b : Branch) :
    b.withoutOperations.measureSizes (fun label => .ok (size label)) elementBytes =
      if inRange (b.sizeNumbers size elementBytes) then (b.setSizes size elementBytes, none)
      else (b.withoutOperations.mapEntries (setTensorSize size elementBytes),
        some (.conversion .outOfRange)) := by
  have hnumbers : ((b.withoutOperations.mapEntries
      (setTensorSize size elementBytes)).tensorSizes).map Binary64.ofInt =
        b.sizeNumbers size elementBytes := by
    rw [tensorSizes_setTensorSize, List.map_map, sizeNumbers, Function.comp_def]
  rw [measureSizes, visitSize_total, sweep_of_total]
  dsimp only
  rw [hnumbers]
  rfl

theorem withoutMeasures_setSizes (b : Branch) :
    (b.setSizes size elementBytes).withoutMeasures = b.withoutMeasures := by
  rw [setSizes, withoutMeasures_mapEntries (withoutMeasures_setSizeShares _ _),
    withoutMeasures_setTensorSize]

/-- The measures that are then set relate to the sum and the span of all sizes. -/
theorem every_setSizes (b : Branch) : (b.setSizes size elementBytes).Every fun e pair =>
    e.measures = (Scale.ofFigures elementBytes (b.figures size elementBytes)).sizeMeasures
      (e.figure size elementBytes pair) := by
  refine (every_setTensorSize b).mapEntries (withoutMeasures_setSizeShares _ _) ?_
  rintro e pair ⟨hunset, hsize⟩
  rw [setSizeShares, hsize]
  dsimp only
  rw [← hunset, Scale.sizeMeasures, Scale.ofFigures, Measures.withoutOperations, hsize]
  rfl

/-! ## The survey -/

/-- The node carries what its figures say without shares of operations, and its operations for each
byte moved are in range. -/
structure Costed (scale : Scale) (size : Label → Int) (elementBytes : Int) (e : Entry)
    (pair : Option Operands) : Prop where
  measures : e.measures = scale.surveyedMeasures (e.figure size elementBytes pair)
  intensity : ∀ operations byteAccesses, (e.figure size elementBytes pair).finding =
    some (.counted operations byteAccesses) → IntensityInRange elementBytes operations byteAccesses

theorem visitOperations_keeps (sizing : Sizing) (s : Survey) (e : Entry) (l r : Branch) :
    (visitOperations sizing elementBytes s e l r).2.1.withoutMeasures = e.withoutMeasures := by
  rw [visitOperations]
  split
  · rfl
  · split
    · rfl
    · split
      · rfl
      · rw [countContraction]
        dsimp only
        split <;> rfl

/-- A visit comes to its end unless the operations for each byte moved are out of range. -/
theorem visitOperations_completes (h : ∀ operations byteAccesses,
    (e.figure size elementBytes (node e l r).paired?).finding =
        some (.counted operations byteAccesses) →
      IntensityInRange elementBytes operations byteAccesses) :
    (visitOperations (fun label => .ok (size label)) elementBytes s e l r).2.2 = none := by
  rw [visitOperations]
  split
  · rfl
  · next hchildren =>
    split
    · rfl
    · next d hd =>
      obtain ⟨x, hx, hoperations, haccesses⟩ := Operands.extents_of_dimensions size hd
      have hrange := h x.operations x.byteAccesses (by
        rw [Entry.figure, paired?_of_children hchildren, Option.map_some, Operands.finding,
          if_pos (Operands.dimensions_ok hd).1, hoperations, haccesses])
      rw [hx]
      dsimp only
      rw [countContraction]
      dsimp only
      rw [if_neg (intensityInRange_iff.mp hrange)]

/-- A visit at a node whose sizes are set adds the node to the totals and sets its costs. -/
theorem visitOperations_figure {figures : List Figure} {pair : Option Operands}
    (hpair : (node e l r).paired? = pair) (hscale : scale.elementBytes = elementBytes)
    (he : e.measures = scale.sizeMeasures (e.figure size elementBytes pair))
    (hs : s.totals = .ofFigures figures)
    (h : visitOperations (fun label => .ok (size label)) elementBytes s e l r = (s', e', none)) :
    e'.withoutMeasures = e.withoutMeasures ∧
      Costed scale size elementBytes e' pair ∧
      s'.totals = .ofFigures (figures ++ [e.figure size elementBytes pair]) := by
  subst hpair
  rcases visitOperations_cases h with ⟨hnone, rfl, rfl⟩ | ⟨o, ho, hno, htotals, rfl⟩ |
    ⟨o, ho, hyes, htotals, hrange, rfl⟩
  · have hfinding : (e'.figure size elementBytes (node e' l r).paired?).finding = none := by
      rw [Entry.figure, hnone, Option.map_none]
    refine ⟨rfl, ⟨?_, ?_⟩, ?_⟩
    · rw [he, Scale.surveyedMeasures, hfinding]
    · intro operations byteAccesses hcounted
      rw [hfinding] at hcounted
      cases hcounted
    · rw [Totals.ofFigures_skip hfinding, hs]
  · have hfinding : (e'.figure size elementBytes (node e' l r).paired?).finding =
        some .faulty := by
      rw [Entry.figure, ho, Option.map_some, Operands.finding, if_neg hno]
    refine ⟨rfl, ⟨?_, ?_⟩, ?_⟩
    · rw [he, Scale.surveyedMeasures, hfinding]
    · intro operations byteAccesses hcounted
      rw [hfinding] at hcounted
      cases hcounted
    · rw [Totals.ofFigures_faulty hfinding, htotals, hs]
      rfl
  · have hfinding : (e.figure size elementBytes (node e l r).paired?).finding =
        some (.counted (o.operationCount size) (o.accessCount size)) := by
      rw [Entry.figure, ho, Option.map_some, Operands.finding, if_pos hyes]
    refine ⟨rfl, ⟨?_, ?_⟩, ?_⟩
    · -- the figures do not look at the measures that have just been set
      show _ = scale.surveyedMeasures (e.figure size elementBytes (node e l r).paired?)
      rw [Scale.surveyedMeasures, hfinding, ← he, hscale]
    · intro operations byteAccesses hcounted
      obtain ⟨rfl, rfl⟩ :=
        Finding.counted.inj (Option.some.inj (hcounted.symm.trans hfinding))
      exact hrange
    · rw [Totals.ofFigures_counted hfinding, htotals, hs]
      rfl

/-- A survey that comes to its end has added up the figures and set the costs. -/
theorem survey_figures
    (hsweep : sweep (visitOperations (fun label => .ok (size label)) elementBytes) {}
      (b.setSizes size elementBytes) = (survey, swept, none)) :
    swept.withoutMeasures = b.withoutMeasures ∧
      swept.Every (Costed (.ofFigures elementBytes (b.figures size elementBytes)) size
        elementBytes) ∧
      survey.totals = .ofFigures (b.figures size elementBytes) := by
  have hstart : ({} : Survey).totals =
      .ofFigures (([] : List Branch).filterMap (figure? size elementBytes)) := rfl
  obtain ⟨hw, hq, htotals⟩ := sweep_every
    (Q := Costed (.ofFigures elementBytes (b.figures size elementBytes)) size elementBytes)
    (I := fun s seen => s.totals = .ofFigures (seen.filterMap (figure? size elementBytes)))
    (fun hpair he hs hv => by
      obtain ⟨hkept, hset, htotals⟩ := visitOperations_figure hpair rfl he hs hv
      refine ⟨hkept, hset, ?_⟩
      rw [htotals, List.filterMap_append]
      rfl) (every_setSizes b) hstart hsweep
  refine ⟨hw.trans (withoutMeasures_setSizes b), hq, ?_⟩
  rw [htotals, ← figures_congr (withoutMeasures_setSizes b), List.nil_append]
  rfl

/-! ## Shares of the operations -/

/-- The operations as numbers, the total first, are in range. -/
theorem inRange_wholeOf {figures : List Figure} {total : Int} :
    inRange (Scale.wholeOf total ::
        (figures.filterMap Figure.operations?).map Binary64.ofInt) ↔
      (Scale.wholeOf total).isFinite ∧
        ∀ f ∈ figures, ∀ n, f.operations? = some n → (Binary64.ofInt n).isFinite := by
  rw [inRange, List.all_eq_true, List.forall_mem_cons, List.forall_mem_map]
  refine and_congr_right fun _ => ⟨fun h f hf n hn => ?_, fun h n hn => ?_⟩
  · exact h n (List.mem_filterMap.mpr ⟨f, hf, hn⟩)
  · obtain ⟨f, hf, hfn⟩ := List.mem_filterMap.mp hn
    exact h f hf n hfn

theorem mapEntries_setTotal (whole : Binary64) (span : Binary64.Span) (total : Int) (b : Branch) :
    (b.setTotal total).mapEntries (setOperationShares whole span) =
      (b.mapEntries (setOperationShares whole span)).setTotal total := by
  cases b with
  | absent => rfl
  | node e l r =>
    have hcomm :
        setOperationShares whole span
            { e with measures := { e.measures with totalOperations := some total } } =
          let shared := setOperationShares whole span e
          { shared with measures := { shared.measures with totalOperations := some total } } := by
      rw [setOperationShares, setOperationShares]
      dsimp only
      split <;> rfl
    rw [setTotal, mapTop, mapEntries, hcomm]
    rfl

theorem setOperationShares_measures {f : Figure} (h : e.measures = scale.surveyedMeasures f) :
    (setOperationShares scale.operationTotal scale.shareSpan e).measures =
      scale.soundMeasures f := by
  have hoperations := scale.surveyedMeasures_operations f
  rw [← h] at hoperations
  rw [setOperationShares, hoperations, Scale.soundMeasures, ← h]
  cases f.operations? <;> rfl

theorem setTotal_keeps (total : Int) (b : Branch) :
    (b.setTotal total).withoutMeasures = b.withoutMeasures :=
  withoutMeasures_mapTop
    (f := fun e => { e with measures := { e.measures with totalOperations := some total } })
    (fun _ => rfl) b

/-- What a measurement that comes to its end leaves of a branch. -/
def settled (size : Label → Int) (elementBytes : Int) (b : Branch) : Branch :=
  let figures := b.figures size elementBytes
  let after := b.withMeasures size elementBytes (Scale.ofFigures elementBytes figures).measures
  if (Totals.ofFigures figures).sound then after.setTotal (Totals.ofFigures figures).operations
  else after

section Surveyed

variable (hkept : swept.withoutMeasures = b.withoutMeasures)
  (hswept : swept.Every (Costed scale size elementBytes))

include hkept hswept

/-- Setting the shares of the operations of a surveyed branch. -/
theorem shareOperations_eq
    (hscale : scale = .ofFigures elementBytes (b.figures size elementBytes)) :
    (swept.setTotal (Totals.ofFigures (b.figures size elementBytes)).operations).shareOperations
        (Totals.ofFigures (b.figures size elementBytes)).operations =
      if inRange (scale.operationTotal ::
          ((b.figures size elementBytes).filterMap Figure.operations?).map Binary64.ofInt) then
        ((swept.setTotal (Totals.ofFigures (b.figures size elementBytes)).operations).mapEntries
          (setOperationShares scale.operationTotal scale.shareSpan), none)
      else (swept.setTotal (Totals.ofFigures (b.figures size elementBytes)).operations,
        some (.conversion .outOfRange)) := by
  have hcounted : (swept.setTotal
      (Totals.ofFigures (b.figures size elementBytes)).operations).Every fun e pair =>
        e.measures.operations = (e.figure size elementBytes pair).operations? := by
    refine Every.mapTop (fun e l r hn => ?_) (fun _ => rfl) fun e pair he => he
    rw [(hswept e l r hn).measures, Scale.surveyedMeasures_operations]
  have hcounts := filterMap_measure Measures.operations Figure.operations? hcounted
  rw [figures_congr ((setTotal_keeps _ _).trans hkept)] at hcounts
  rw [shareOperations, operationCounts, hcounts, hscale]
  rfl

/-- With the shares set, every node carries the measures of a branch without a faulty node. -/
theorem mapEntries_setOperationShares (hsound : scale.sound = true) :
    swept.mapEntries (setOperationShares scale.operationTotal scale.shareSpan) =
      b.withMeasures size elementBytes scale.measures := by
  have hfields := withoutMeasures_setOperationShares scale.operationTotal scale.shareSpan
  refine eq_withMeasures ((withoutMeasures_mapEntries hfields swept).trans hkept) ?_
  refine hswept.mapEntries hfields fun e pair he => ?_
  rw [setOperationShares_measures he.measures, Scale.measures, if_pos hsound]
  obtain ⟨share, normalized, hset⟩ :=
    exists_setOperationShares scale.operationTotal scale.shareSpan e
  rw [hset]
  rfl

/-- Without a contraction there are no shares to set. -/
theorem eq_withMeasures_of_uncounted
    (hnone : (Totals.ofFigures (b.figures size elementBytes)).contractions = [])
    (hsound : scale.sound = true) : swept = b.withMeasures size elementBytes scale.measures := by
  refine eq_withMeasures hkept fun e l r hn => ?_
  have hf : e.figure size elementBytes (node e l r).paired? ∈ b.figures size elementBytes := by
    rw [← figures_congr hkept]
    exact mem_figures.mpr ⟨e, l, r, hn, rfl⟩
  have hoperations := Totals.operations?_of_uncounted hnone hf
  show e.measures = scale.measures (e.figure size elementBytes (node e l r).paired?)
  rw [(hswept e l r hn).measures, Scale.measures, if_pos hsound, Scale.soundMeasures, hoperations]

/-- With a faulty node, only what concerns sizes is left. -/
theorem withoutOperations_eq (hsound : ¬scale.sound = true) :
    swept.withoutOperations = b.withMeasures size elementBytes scale.measures := by
  refine eq_withMeasures ((withoutMeasures_withoutOperations swept).trans hkept) ?_
  refine hswept.mapEntries (fun _ => rfl) fun e pair he => ?_
  show e.measures.withoutOperations = scale.measures (e.figure size elementBytes pair)
  rw [he.measures, Scale.withoutOperations_surveyedMeasures, Scale.measures, if_neg hsound]

/-- What comes after a survey: an answer if the shares that are told are in range. -/
theorem measureOperations_of_survey
    (hscale : scale = .ofFigures elementBytes (b.figures size elementBytes))
    (htotals : survey.totals = .ofFigures (b.figures size elementBytes))
    (hsweep : sweep (visitOperations (fun label => .ok (size label)) elementBytes) {} sized =
      (survey, swept, none)) :
    let m := sized.measureOperations (fun label => .ok (size label)) elementBytes
    let shares := survey.totals.sound → (Scale.wholeOf survey.totals.operations).isFinite ∧
      ∀ f ∈ b.figures size elementBytes, ∀ n, f.operations? = some n →
        (Binary64.ofInt n).isFinite
    (shares → m.outcome = .ok survey.totals.settled ∧ m.branch = b.settled size elementBytes) ∧
      ∀ totals, m.outcome = .ok totals → shares := by
  intro m shares
  have hsound : scale.sound = survey.totals.sound := by
    rw [hscale, htotals]
    rfl
  have hm : m = sized.measureOperations (fun label => .ok (size label)) elementBytes := rfl
  rw [measureOperations, hsweep] at hm
  dsimp only at hm
  by_cases hs : survey.totals.sound
  · have hsettled : b.settled size elementBytes =
        (b.withMeasures size elementBytes scale.measures).setTotal survey.totals.operations := by
      rw [settled, ← htotals, ← hscale, if_pos hs]
    rw [if_pos hs] at hm
    rw [Totals.settled, if_pos hs, hsettled]
    by_cases hc : survey.totals.contractions.isEmpty
    · -- no contraction, no share: the total is zero and there is nothing more to set
      have hnone : (Totals.ofFigures (b.figures size elementBytes)).contractions = [] := by
        rw [← htotals]
        exact List.isEmpty_iff.mp hc
      have hshares : shares := by
        refine fun _ => ⟨?_, fun f hf n hn => ?_⟩
        · rw [htotals, Totals.operations_of_uncounted hnone]
          rfl
        · rw [Totals.operations?_of_uncounted hnone hf] at hn
          cases hn
      rw [if_pos hc] at hm
      refine ⟨fun _ => ⟨by rw [hm], ?_⟩, fun _ _ => hshares⟩
      rw [hm, eq_withMeasures_of_uncounted hkept hswept hnone (hsound.trans hs)]
    · rw [if_neg hc, htotals, shareOperations_eq hkept hswept hscale] at hm
      by_cases hrange : inRange (scale.operationTotal ::
          ((b.figures size elementBytes).filterMap Figure.operations?).map Binary64.ofInt)
      · rw [if_pos hrange, mapEntries_setTotal,
          mapEntries_setOperationShares hkept hswept (hsound.trans hs)] at hm
        refine ⟨fun _ => ⟨by rw [hm, htotals], by rw [hm, htotals]⟩, fun _ _ _ => ?_⟩
        rw [hscale] at hrange
        rw [htotals]
        exact inRange_wholeOf.mp hrange
      · rw [if_neg hrange] at hm
        refine ⟨fun hshares => absurd ?_ hrange, fun totals hok => ?_⟩
        · rw [hscale]
          have hfinite := hshares hs
          rw [htotals] at hfinite
          exact inRange_wholeOf.mpr hfinite
        · rw [hm] at hok
          cases hok
  · rw [if_neg hs] at hm
    have hsettled : b.settled size elementBytes =
        b.withMeasures size elementBytes scale.measures := by
      rw [settled, ← htotals, ← hscale, if_neg hs]
    refine ⟨fun _ => ⟨?_, ?_⟩, fun _ _ hsound => absurd hsound hs⟩
    · rw [hm, Totals.settled, if_neg hs]
    · rw [hm, hsettled]
      exact withoutOperations_eq hkept hswept fun h => hs (hsound.symm.trans h)

end Surveyed

/-! ## The whole measurement -/

theorem inRange_sizeNumbers : inRange (b.sizeNumbers size elementBytes) ↔
    ∀ f ∈ b.figures size elementBytes, (Binary64.ofInt f.bytes).isFinite := by
  rw [inRange, sizeNumbers, List.all_eq_true, List.forall_mem_map]

theorem inRange_nil : InRange elementBytes [] where
  sizes := by simp
  intensities := by simp
  shares := fun _ => ⟨rfl, by simp⟩

/-- A measurement that comes to its end had all numbers in range. -/
theorem inRange_of_measured
    (h : (b.measureBy (fun label => .ok (size label)) elementBytes).outcome = .ok totals) :
    InRange elementBytes (b.figures size elementBytes) := by
  rw [measureBy] at h
  cases b with
  | absent =>
    rw [figures_absent]
    exact inRange_nil
  | node e l r =>
    rw [if_neg (by simp [isAbsent]), measureSizes_eq] at h
    by_cases hsizes : inRange ((node e l r).sizeNumbers size elementBytes)
    · rw [if_pos hsizes] at h
      dsimp only at h
      rcases hsweep : sweep (visitOperations (fun label => .ok (size label)) elementBytes) {}
        ((node e l r).setSizes size elementBytes) with ⟨survey, swept, _ | fault⟩
      · obtain ⟨hkept, hswept, htotals⟩ := survey_figures hsweep
        have hshares :=
          (measureOperations_of_survey hkept hswept rfl htotals hsweep).2 totals h
        rw [htotals] at hshares
        refine ⟨inRange_sizeNumbers.mp hsizes, ?_, hshares⟩
        intro f hf
        rw [← figures_congr hkept] at hf
        obtain ⟨e', l', r', hn, rfl⟩ := mem_figures.mp hf
        exact (hswept e' l' r' hn).intensity
      · rw [measureOperations, hsweep] at h
        cases h
    · rw [if_neg hsizes] at h
      cases h

/-- Where all numbers are in range, a measurement comes to its end, with the totals of the figures
and every measure set by them. -/
theorem measureBy_of_inRange (h : InRange elementBytes (b.figures size elementBytes)) :
    (b.measureBy (fun label => .ok (size label)) elementBytes).outcome =
        .ok (Totals.ofFigures (b.figures size elementBytes)).settled ∧
      (b.measureBy (fun label => .ok (size label)) elementBytes).branch =
        b.settled size elementBytes := by
  rw [measureBy]
  cases b with
  | absent =>
    rw [settled, figures_absent]
    exact ⟨rfl, rfl⟩
  | node e l r =>
    rw [if_neg (by simp [isAbsent]), measureSizes_eq, if_pos (inRange_sizeNumbers.mpr h.sizes)]
    dsimp only
    obtain ⟨survey, swept, hsweep⟩ : ∃ survey swept,
        sweep (visitOperations (fun label => .ok (size label)) elementBytes) {}
          ((node e l r).setSizes size elementBytes) = (survey, swept, none) := by
      refine sweep_completes (P := fun e pair => ∀ operations byteAccesses,
        (e.figure size elementBytes pair).finding = some (.counted operations byteAccesses) →
          IntensityInRange elementBytes operations byteAccesses)
        (visitOperations_keeps _) (fun s e l r hp => visitOperations_completes hp) ?_
      intro e' l' r' hn operations byteAccesses hcounted
      refine h.intensities _ ?_ operations byteAccesses hcounted
      rw [← figures_congr (withoutMeasures_setSizes (node e l r))]
      exact mem_figures.mpr ⟨e', l', r', hn, rfl⟩
    obtain ⟨hkept, hswept, htotals⟩ := survey_figures hsweep
    have hshares := h.shares
    rw [← htotals] at hshares ⊢
    exact (measureOperations_of_survey hkept hswept rfl htotals hsweep).1 hshares

/-! ## The measures that there were -/

theorem withoutMeasures_settled (b : Branch) :
    (b.settled size elementBytes).withoutMeasures = b.withoutMeasures := by
  rw [settled]
  split
  · rw [setTotal_keeps, withoutMeasures_withMeasures]
  · rw [withoutMeasures_withMeasures]

theorem settled_congr (hb : b'.withoutMeasures = b.withoutMeasures) :
    b'.settled size elementBytes = b.settled size elementBytes := by
  rw [settled, settled, figures_congr hb, withMeasures_congr hb]

/-- A measurement that comes to its end leaves all but the measures alone, and it would leave and
answer the same if other measures had been there before. -/
theorem measureBy_congr (hb : b'.withoutMeasures = b.withoutMeasures)
    (h : (b.measureBy (fun label => .ok (size label)) elementBytes).outcome = .ok totals) :
    (b.measureBy (fun label => .ok (size label)) elementBytes).branch.withoutMeasures =
        b.withoutMeasures ∧
      (b'.measureBy (fun label => .ok (size label)) elementBytes).outcome = .ok totals ∧
      (b'.measureBy (fun label => .ok (size label)) elementBytes).branch =
        (b.measureBy (fun label => .ok (size label)) elementBytes).branch := by
  have hrange := inRange_of_measured h
  obtain ⟨houtcome, hbranch⟩ := measureBy_of_inRange hrange
  rw [← figures_congr hb] at hrange
  obtain ⟨houtcome', hbranch'⟩ := measureBy_of_inRange hrange
  refine ⟨?_, ?_, ?_⟩
  · rw [hbranch, withoutMeasures_settled]
  · rw [houtcome', figures_congr hb, ← houtcome, h]
  · rw [hbranch, hbranch', settled_congr hb]

end Branch

end Contraction
