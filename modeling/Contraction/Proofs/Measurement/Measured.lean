import Contraction.Measurement
import Contraction.Proofs.Measurement.Survey
import Mathlib

/-!
# What a measurement leaves

A measurement under a table of integers that gives totals has set the bytes of every tensor. Its
totals name the faulty nodes; if there is none, every contraction carries its costs and they add up
to the total, and else no node carries anything that concerns operations, although nodes visited
before a faulty one had been given their costs.
-/

namespace Contraction

open Number

namespace Branch

/-- What totals and the branch left behind say of a branch, by the sizes of its labels. -/
structure Measured (size : Label → Int) (elementBytes : Int) (b : Branch) (totals : Totals)
    (after : Branch) : Prop where
  /-- Nothing but measures has changed. -/
  sameTree : after.withoutMeasures = b.withoutMeasures
  tensorSize : ∀ e l r, node e l r ∈ after.postorder →
    e.measures.tensorSize = some (elementBytes * (e.labels.map size).prod)
  faulty : totals.faulty = (b.postorder.filter fun n => n.IsFaulty).filterMap id?
  /-- Without a faulty node, exactly the nodes with two children carry costs. -/
  costs : totals.faulty = [] → ∀ e l r, node e l r ∈ after.postorder →
    e.measures.operations = (if (node e l r).isContraction then
      some ((node e l r).operands.operationCount size) else none) ∧
    e.measures.byteAccesses = (if (node e l r).isContraction then
      some ((node e l r).operands.accessCount size) else none)
  contractions : totals.faulty = [] →
    totals.contractions = (b.postorder.filter isContraction).filterMap id?
  operations : totals.faulty = [] → totals.operations =
    ((b.postorder.filter isContraction).map fun n => n.operands.operationCount size).sum
  /-- The total stands at the top. -/
  total : totals.faulty = [] → ∀ e, after.entry? = some e →
    e.measures.totalOperations = some totals.operations
  /-- With a faulty node, nothing that concerns operations is set anywhere. -/
  uncounted : totals.faulty ≠ [] → totals.operations = 0 ∧ totals.contractions = [] ∧
    ∀ e l r, node e l r ∈ after.postorder → e.measures.LacksOperations

variable {size : Label → Int} {elementBytes : Int} {b b' : Branch} {e : Entry} {totals : Totals}

theorem withoutMeasures_withoutOperations (b : Branch) :
    b.withoutOperations.withoutMeasures = b.withoutMeasures := by
  apply withoutMeasures_mapEntries
  intro e
  rfl

/-- A measurement by the sizes of labels. -/
def measureBy (sizing : Sizing) (elementBytes : Int) (b : Branch) : Measurement :=
  if b.isAbsent then ⟨b, .ok {}, []⟩
  else
    match b.withoutOperations.measureSizes sizing elementBytes with
    | (b, some fault) => ⟨b, .error fault, []⟩
    | (b, none) => b.measureOperations sizing elementBytes

theorem measureUnder_eq (sizes : Table Datum) (config : Config) (b : Branch) :
    b.measureUnder sizes config =
      b.measureBy (.ofTable sizes (.int config.defaultSize)) config.elementBytes :=
  rfl

/-! ## Sizes -/

/-- The shares of the sizes change two fields. -/
theorem exists_setSizeShares (whole : Binary64) (span : Binary64.Span) (e : Entry) :
    ∃ share normalized, setSizeShares whole span e = { e with measures := { e.measures with
      sizePercentage := share
      normalizedSizePercentage := normalized } } := by
  unfold setSizeShares
  split
  · exact ⟨e.measures.sizePercentage, e.measures.normalizedSizePercentage, rfl⟩
  · exact ⟨_, _, rfl⟩

theorem withoutMeasures_setSizeShares (whole : Binary64) (span : Binary64.Span) (e : Entry) :
    (setSizeShares whole span e).withoutMeasures = e.withoutMeasures := by
  obtain ⟨share, normalized, he⟩ := exists_setSizeShares whole span e
  rw [he]
  rfl

/-- The bytes of a tensor, set at a node. -/
def setTensorSize (size : Label → Int) (elementBytes : Int) (e : Entry) : Entry :=
  { e with measures := { e.measures with
    tensorSize := some ((e.labels.map size).prod * elementBytes) } }

theorem visitSize_total : visitSize (fun label => .ok (size label)) elementBytes =
    fun s e _ _ => (s, setTensorSize size elementBytes e, none) := by
  funext s e l r
  rw [visitSize, Sizing.product_total]
  rfl

theorem sized_setTensorSize (he : e.measures.withoutOperations = e.measures) :
    (setTensorSize size elementBytes e).Sized size elementBytes := by
  refine ⟨?_, ?_⟩
  · rw [Int.mul_comm]
    rfl
  · rw [setTensorSize, ← he]
    rfl

/-- Setting the sizes of a branch without operations sets nothing else. -/
theorem measureSizes_ok (hb : b.Every fun e _ => e.measures.withoutOperations = e.measures)
    (h : b.measureSizes (fun label => .ok (size label)) elementBytes = (b', none)) :
    b'.withoutMeasures = b.withoutMeasures ∧ b'.Every fun e _ => e.Sized size elementBytes := by
  rw [measureSizes, visitSize_total, sweep_of_total] at h
  dsimp only at h
  split at h
  · simp only [Prod.mk.injEq, and_true] at h
    subst h
    have hset : (b.mapEntries (setTensorSize size elementBytes)).Every
        fun e _ => e.Sized size elementBytes :=
      hb.mapEntries (fun e => rfl) fun e _ he => sized_setTensorSize he
    refine ⟨?_, hset.mapEntries (withoutMeasures_setSizeShares _ _) ?_⟩
    · rw [withoutMeasures_mapEntries (withoutMeasures_setSizeShares _ _)]
      apply withoutMeasures_mapEntries
      intro e
      rfl
    · intro e _ hsized
      obtain ⟨share, normalized, he⟩ := exists_setSizeShares _ _ e
      rw [he]
      refine ⟨hsized.tensorSize, ?_⟩
      dsimp only
      rw [← hsized.unset]
      rfl
  · simp at h

/-! ## Operations -/

/-- The shares of the operations change two fields. -/
theorem exists_setOperationShares (whole : Binary64) (span : Binary64.Span) (e : Entry) :
    ∃ share normalized, setOperationShares whole span e = { e with measures := { e.measures with
      operationsPercentage := share
      normalizedOperationsPercentage := normalized } } := by
  unfold setOperationShares
  split
  · exact ⟨e.measures.operationsPercentage, e.measures.normalizedOperationsPercentage, rfl⟩
  · exact ⟨_, _, rfl⟩

theorem withoutMeasures_setOperationShares (whole : Binary64) (span : Binary64.Span) (e : Entry) :
    (setOperationShares whole span e).withoutMeasures = e.withoutMeasures := by
  obtain ⟨share, normalized, he⟩ := exists_setOperationShares whole span e
  rw [he]
  rfl

/-- A branch that has been surveyed, with the total at its top. -/
structure Counted (size : Label → Int) (elementBytes : Int) (b : Branch) (total : Int)
    (after : Branch) : Prop where
  sameTree : after.withoutMeasures = b.withoutMeasures
  surveyed : after.Every (Entry.Surveyed size elementBytes)
  top : ∀ e, after.entry? = some e → e.measures.totalOperations = some total

/-- Where the tally has no faulty node, the costs are those of the nodes with two children. -/
theorem Counted.measured (h : Counted size elementBytes b totals.operations b')
    (ht : totals.Tally size b.postorder) (hf : totals.faulty = []) :
    Measured size elementBytes b totals b' where
  sameTree := h.sameTree
  tensorSize := fun e l r hn => (h.surveyed e l r hn).tensorSize
  faulty := ht.faulty
  costs := by
    intro _ e l r hn
    have hsurveyed := h.surveyed e l r hn
    by_cases hbinary : (node e l r).isContraction
    · have ho := (ht.congr h.sameTree.symm).isContraction_of_sound hf hn hbinary
      have hpair := paired?_of_isContraction hbinary
      rw [hsurveyed.operations, hsurveyed.byteAccesses, hpair, if_pos hbinary, if_pos hbinary]
      simp [ho]
    · have hpair := paired?_of_not_isContraction hbinary
      rw [hsurveyed.operations, hsurveyed.byteAccesses, hpair, if_neg hbinary, if_neg hbinary]
      exact ⟨rfl, rfl⟩
  contractions := fun _ => by rw [ht.contractions, ht.filter_of_sound hf]
  operations := fun _ => by rw [ht.operations, ht.filter_of_sound hf]
  total := fun _ => h.top
  uncounted := fun hne => absurd hf hne

/-- Where the tally has a faulty node, all that concerns operations is unset again. -/
theorem measured_of_unsound (ht : totals.Tally size b.postorder) (hf : totals.faulty ≠ [])
    (hw : b'.withoutMeasures = b.withoutMeasures)
    (hq : b'.Every (Entry.Surveyed size elementBytes)) :
    Measured size elementBytes b { faulty := totals.faulty } b'.withoutOperations := by
  have hcleared : b'.withoutOperations.Every fun e _ => e.Sized size elementBytes :=
    hq.mapEntries (fun e => rfl) fun e _ he => ⟨he.tensorSize, rfl⟩
  exact {
    -- what has been counted before the faulty node is taken back with all else
    sameTree := (withoutMeasures_withoutOperations b').trans hw
    tensorSize := fun e l r hn => (hcleared e l r hn).tensorSize
    faulty := ht.faulty
    costs := fun hnil => absurd hnil hf
    contractions := fun hnil => absurd hnil hf
    operations := fun hnil => absurd hnil hf
    total := fun hnil => absurd hnil hf
    uncounted := fun _ => ⟨rfl, rfl, fun e l r hn =>
      Measures.withoutOperations_eq_self_iff.mp (hcleared e l r hn).unset⟩ }

/-- Setting the total at the top of a branch that has been surveyed. -/
theorem counted_setTotal (hw : b'.withoutMeasures = b.withoutMeasures)
    (hq : b'.Every (Entry.Surveyed size elementBytes)) (total : Int) :
    Counted size elementBytes b total (b'.setTotal total) where
  sameTree := by rw [setTotal, withoutMeasures_mapTop (fun e => by rfl), hw]
  surveyed :=
    hq.mapTop (fun e => by rfl) fun e _ he => ⟨he.tensorSize, he.operations, he.byteAccesses⟩
  top := by
    intro e he
    cases b' with
    | absent => simp [setTotal, mapTop, entry?] at he
    | node top l r =>
      simp only [setTotal, mapTop, entry?, Option.some.injEq] at he
      subst he
      rfl

/-- Sharing changes neither costs nor the total. -/
theorem Counted.shareOperations {total : Int} {shared : Branch}
    (hc : Counted size elementBytes b total b')
    (h : b'.shareOperations total = (shared, none)) :
    Counted size elementBytes b total shared := by
  unfold Branch.shareOperations at h
  dsimp only at h
  -- what the shares are does not matter, only that nothing else is touched
  generalize (if 0 < total then Binary64.ofInt total else .zero) = whole at h
  split at h
  · simp only [Prod.mk.injEq, and_true] at h
    subst h
    refine ⟨?_, ?_, ?_⟩
    · rw [withoutMeasures_mapEntries (withoutMeasures_setOperationShares _ _), hc.sameTree]
    · refine hc.surveyed.mapEntries (withoutMeasures_setOperationShares _ _) ?_
      intro e _ he
      obtain ⟨share, normalized, hshares⟩ := exists_setOperationShares _ _ e
      rw [hshares]
      exact ⟨he.tensorSize, he.operations, he.byteAccesses⟩
    · intro e he
      cases b' with
      | absent => simp [mapEntries, entry?] at he
      | node top l r =>
        simp only [mapEntries, entry?, Option.some.injEq] at he
        subst he
        obtain ⟨share, normalized, hshares⟩ := exists_setOperationShares _ _ top
        rw [hshares]
        exact hc.top top rfl
  · simp at h

/-- Counting the operations of a branch whose sizes are set. -/
theorem measureOperations_ok {sized : Branch}
    (hb : sized.Every fun e _ => e.Sized size elementBytes)
    (hw : sized.withoutMeasures = b.withoutMeasures)
    (h : (sized.measureOperations (fun label => .ok (size label)) elementBytes).outcome =
      .ok totals) :
    Measured size elementBytes b totals
      (sized.measureOperations (fun label => .ok (size label)) elementBytes).branch := by
  unfold measureOperations at h ⊢
  rcases hsweep : sweep (visitOperations (fun label => .ok (size label)) elementBytes) {} sized with
    ⟨survey, swept, _ | fault⟩
  · rw [hsweep] at h
    dsimp only at h ⊢
    obtain ⟨hswept, hq, htally⟩ := sweep_visitOperations hb hsweep
    -- the tally is one of the branch with its sizes set, and so one of the branch as it was
    have ht := htally.congr hw
    have hw := hswept.trans hw
    by_cases hs : survey.totals.sound
    · have hf : survey.totals.faulty = [] := List.isEmpty_iff.mp hs
      have hcounted := counted_setTotal hw hq survey.totals.operations
      rw [if_pos hs] at h ⊢
      by_cases hc : survey.totals.contractions.isEmpty
      · rw [if_pos hc] at h ⊢
        obtain rfl := Except.ok.inj h
        exact hcounted.measured ht hf
      · rw [if_neg hc] at h ⊢
        rcases hshare : (swept.setTotal survey.totals.operations).shareOperations
          survey.totals.operations with ⟨shared, _ | fault⟩
        · rw [hshare] at h
          obtain rfl := Except.ok.inj h
          exact (hcounted.shareOperations hshare).measured ht hf
        · rw [hshare] at h
          simp at h
    · have hf : survey.totals.faulty ≠ [] := fun hnil => hs (List.isEmpty_iff.mpr hnil)
      rw [if_neg hs] at h ⊢
      obtain rfl := Except.ok.inj h
      exact measured_of_unsound ht hf hw hq
  · rw [hsweep] at h
    simp at h

theorem measured_absent : Measured size elementBytes absent {} absent where
  sameTree := rfl
  tensorSize := by simp
  faulty := by simp
  costs := by simp
  contractions := by simp
  operations := by simp
  total := by
    intro _ e he
    cases he
  uncounted := by simp

theorem every_withoutOperations (b : Branch) :
    b.withoutOperations.Every fun e _ => e.measures.withoutOperations = e.measures := by
  have hall : b.Every fun _ _ => True := fun _ _ _ _ => trivial
  exact hall.mapEntries (fun e => rfl) fun e _ _ => rfl

theorem measureBy_ok
    (h : (b.measureBy (fun label => .ok (size label)) elementBytes).outcome = .ok totals) :
    Measured size elementBytes b totals
      (b.measureBy (fun label => .ok (size label)) elementBytes).branch := by
  unfold measureBy at h ⊢
  cases b with
  | absent =>
    obtain rfl := Except.ok.inj h
    exact measured_absent
  | node e l r =>
    rw [if_neg (by simp [isAbsent])] at h ⊢
    rcases hsizes : (node e l r).withoutOperations.measureSizes (fun label => .ok (size label))
      elementBytes with ⟨sized, _ | fault⟩
    · rw [hsizes] at h
      obtain ⟨hw, hsized⟩ := measureSizes_ok (every_withoutOperations _) hsizes
      exact measureOperations_ok hsized (hw.trans (withoutMeasures_withoutOperations _)) h
    · rw [hsizes] at h
      simp at h

theorem measureUnder_ok (sizes : Table Int) (config : Config)
    (h : (b.measureUnder (sizes.map .int) config).outcome = .ok totals) :
    Measured (config.sizeOf sizes) config.elementBytes b totals
      (b.measureUnder (sizes.map .int) config).branch := by
  rw [measureUnder_eq, Sizing.ofTable_int] at h ⊢
  exact measureBy_ok h

/-- A measurement that gives totals, under settings that can be used and a table of integers. -/
theorem measured_of_outcome_ok (sizes : Table Int) (settings : Settings) (config : Config)
    (b : Branch) (totals : Totals) (hc : settings.check = .ok config)
    (h : (b.measure (sizes.map .int) settings).outcome = .ok totals) :
    Measured (config.sizeOf sizes) config.elementBytes b totals
      (b.measure (sizes.map .int) settings).branch := by
  rw [measure, hc] at h ⊢
  exact measureUnder_ok sizes config h

/-- A product of two tensors, one of which repeats a label, is counted; below a node that loses
labels of its operand its costs are unset again. -/
theorem measured_of_outcome_ok_below_faulty :
    let sizes : Table Int := ⟨[("m", 3), ("k", 5)]⟩
    let product : Branch := node
      { id := "c", labels := [some "m", some "n"], measures := { operations := some 7 } }
      (node { id := "a", labels := [some "m", some "k"] } absent absent)
      (node { id := "b", labels := [some "k", some "n", some "k"] } absent absent)
    let above : Branch := node { id := "e", labels := [some "m"] } product
      (node { id := "d", labels := [some "m"] } absent absent)
    (∃ totals, (product.measure (sizes.map .int) {}).outcome = .ok totals ∧ totals.operations = 54 ∧
      Measured (({} : Config).sizeOf sizes) 4 product totals
        (product.measure (sizes.map .int) {}).branch) ∧
    ∃ totals, (above.measure (sizes.map .int) {}).outcome = .ok totals ∧ totals.faulty = ["e"] ∧
      Measured (({} : Config).sizeOf sizes) 4 above totals
        (above.measure (sizes.map .int) {}).branch := by
  intro sizes product above
  have hc : ({} : Settings).check = .ok ({} : Config) := by cbv
  have hok : ∀ {x : Except Fault Totals} {totals : Totals}, x.toOption = some totals →
      x = .ok totals := by
    rintro (fault | found) totals hx
    · simp [Except.toOption] at hx
    · exact congrArg Except.ok (Option.some.inj hx)
  have hproduct : (product.measure (sizes.map .int) {}).outcome =
      .ok { operations := 54, contractions := ["c"] } := hok (by decide +kernel)
  have habove : (above.measure (sizes.map .int) {}).outcome = .ok { faulty := ["e"] } :=
    hok (by decide +kernel)
  exact ⟨⟨_, hproduct, rfl, measured_of_outcome_ok sizes {} {} product _ hc hproduct⟩,
    ⟨_, habove, rfl, measured_of_outcome_ok sizes {} {} above _ hc habove⟩⟩

end Branch

end Contraction
