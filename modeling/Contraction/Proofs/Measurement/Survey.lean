import Contraction.Measurement.Operations
import Contraction.Proofs.Branch.Sweep
import Contraction.Proofs.Measurement.Costs

/-!
# What the survey of a branch finds

The survey visits the nodes in post-order. `Totals.Tally` is what its totals say of the nodes seen
so far: which of them are faulty, and which contractions were counted and what they do together.
`Entry.Surveyed` is what a node carries once it has been seen.
-/

namespace Contraction

open Number

namespace Branch

variable {b : Branch} {o : Operands}

/-- A node with two children whose labels make no contraction of them. -/
def IsFaulty (b : Branch) : Prop :=
  b.isContraction ∧ ¬b.operands.IsContraction

/-- A node with two children whose labels make a contraction of them. -/
def IsCounted (b : Branch) : Prop :=
  b.isContraction ∧ b.operands.IsContraction

instance (b : Branch) : Decidable b.IsFaulty :=
  inferInstanceAs (Decidable (_ ∧ ¬_))

instance (b : Branch) : Decidable b.IsCounted :=
  inferInstanceAs (Decidable (_ ∧ _))

@[simp] theorem isFaulty_withoutMeasures : b.withoutMeasures.IsFaulty ↔ b.IsFaulty := by
  simp [IsFaulty]

@[simp] theorem isCounted_withoutMeasures : b.withoutMeasures.IsCounted ↔ b.IsCounted := by
  simp [IsCounted]

theorem paired?_eq_some : b.paired? = some o ↔ b.isContraction ∧ b.operands = o := by
  simp [paired?]

theorem paired?_eq_none : b.paired? = none ↔ ¬b.isContraction := by
  simp [paired?]

/-- A node that is not passed over pairs its labels with those of its children. -/
theorem paired?_of_children {e : Entry} {l r : Branch} (h : ¬(l.isAbsent || r.isAbsent) = true) :
    (node e l r).paired? = some (node e l r).operands := by
  apply paired?_of_isContraction
  rw [isContraction_node, Bool.eq_false_of_not_eq_true h]
  rfl

end Branch

/-! ## The totals -/

/-- What totals say of some nodes: the faulty ones, the counted ones, and their operations. -/
structure Totals.Tally (size : Label → Int) (nodes : List Branch) (t : Totals) : Prop where
  faulty : t.faulty = (nodes.filter fun n => n.IsFaulty).filterMap Branch.id?
  contractions : t.contractions = (nodes.filter fun n => n.IsCounted).filterMap Branch.id?
  operations : t.operations =
    ((nodes.filter fun n => n.IsCounted).map fun n => n.operands.operationCount size).sum

namespace Totals

variable {size : Label → Int} {nodes : List Branch} {t : Totals} {n : Branch} {o : Operands}
  {id : String}

theorem tally_nil : Tally size [] {} where
  faulty := rfl
  contractions := rfl
  operations := rfl

/-- A node without two children adds nothing. -/
theorem Tally.skip (h : t.Tally size nodes) (hn : n.paired? = none) :
    t.Tally size (nodes ++ [n]) := by
  have hnot := Branch.paired?_eq_none.mp hn
  have hfaulty : ¬n.IsFaulty := fun hf => hnot hf.1
  have hcounted : ¬n.IsCounted := fun hc => hnot hc.1
  exact ⟨by simp [hfaulty, h.faulty], by simp [hcounted, h.contractions],
    by simp [hcounted, h.operations]⟩

theorem Tally.addFaulty (h : t.Tally size nodes) (hn : n.paired? = some o) (hid : n.id? = some id)
    (ho : ¬o.IsContraction) :
    Tally size (nodes ++ [n]) { t with faulty := t.faulty ++ [id] } := by
  obtain ⟨hbinary, rfl⟩ := Branch.paired?_eq_some.mp hn
  have hfaulty : n.IsFaulty := ⟨hbinary, ho⟩
  have hcounted : ¬n.IsCounted := fun hc => ho hc.2
  exact ⟨by simp [hfaulty, hid, h.faulty], by simp [hcounted, h.contractions],
    by simp [hcounted, h.operations]⟩

theorem Tally.addCounted (h : t.Tally size nodes) (hn : n.paired? = some o)
    (hid : n.id? = some id) (ho : o.IsContraction) :
    Tally size (nodes ++ [n]) { t with
      operations := t.operations + o.operationCount size
      contractions := t.contractions ++ [id] } := by
  obtain ⟨hbinary, rfl⟩ := Branch.paired?_eq_some.mp hn
  have hfaulty : ¬n.IsFaulty := fun hf => hf.2 ho
  have hcounted : n.IsCounted := ⟨hbinary, ho⟩
  exact ⟨by simp [hfaulty, h.faulty], by simp [hcounted, hid, h.contractions],
    by simp [hcounted, h.operations]⟩

/-- If no node is faulty, every node with two children has been counted. -/
theorem Tally.isContraction_of_sound (h : t.Tally size nodes) (hs : t.faulty = []) (hn : n ∈ nodes)
    (hbinary : n.isContraction) : n.operands.IsContraction := by
  by_contra ho
  have hfaulty : n ∈ nodes.filter fun n => n.IsFaulty :=
    List.mem_filter.mpr ⟨hn, decide_eq_true ⟨hbinary, ho⟩⟩
  -- a faulty node has an id, so the list of the faulty ones would not be empty
  cases n with
  | absent => simp [Branch.isContraction] at hbinary
  | node e l r =>
    have hid : e.id ∈ t.faulty := by
      rw [h.faulty]
      exact List.mem_filterMap.mpr ⟨_, hfaulty, rfl⟩
    simp [hs] at hid

theorem Tally.filter_of_sound (h : t.Tally size nodes) (hs : t.faulty = []) :
    (nodes.filter fun n => n.IsCounted) = nodes.filter Branch.isContraction := by
  apply List.filter_congr
  intro n hn
  by_cases hbinary : n.isContraction
  · have ho := h.isContraction_of_sound hs hn hbinary
    simp [Branch.IsCounted, hbinary, ho]
  · simp [Branch.IsCounted, hbinary]

/-- What totals say does not depend on measures. -/
theorem tally_withoutMeasures :
    t.Tally size (nodes.map Branch.withoutMeasures) ↔ t.Tally size nodes := by
  have hf : ((nodes.map Branch.withoutMeasures).filter fun n => n.IsFaulty).filterMap Branch.id? =
      (nodes.filter fun n => n.IsFaulty).filterMap Branch.id? := by
    simp [List.filter_map, Function.comp_def]
  have hc : ((nodes.map Branch.withoutMeasures).filter fun n => n.IsCounted).filterMap Branch.id? =
      (nodes.filter fun n => n.IsCounted).filterMap Branch.id? := by
    simp [List.filter_map, Function.comp_def]
  have ho : ((nodes.map Branch.withoutMeasures).filter fun n => n.IsCounted).map
        (fun n => n.operands.operationCount size) =
      (nodes.filter fun n => n.IsCounted).map fun n => n.operands.operationCount size := by
    simp [List.filter_map, Function.comp_def]
  constructor
  · intro h
    exact ⟨h.faulty.trans hf, h.contractions.trans hc, h.operations.trans (congrArg List.sum ho)⟩
  · intro h
    exact ⟨h.faulty.trans hf.symm, h.contractions.trans hc.symm,
      h.operations.trans (congrArg List.sum ho.symm)⟩

theorem Tally.congr {b b' : Branch} (h : t.Tally size b.postorder)
    (hb : b.withoutMeasures = b'.withoutMeasures) : t.Tally size b'.postorder := by
  rw [← tally_withoutMeasures, ← Branch.postorder_withoutMeasures] at h ⊢
  rw [← hb]
  exact h

end Totals

/-! ## What a node carries -/

namespace Entry

variable {size : Label → Int} {elementBytes : Int} {e : Entry} {pair : Option Operands}

/-- The bytes of the tensor are set, and nothing that concerns operations. -/
structure Sized (size : Label → Int) (elementBytes : Int) (e : Entry) : Prop where
  tensorSize : e.measures.tensorSize = some (elementBytes * (e.labels.map size).prod)
  unset : e.measures.withoutOperations = e.measures

/-- The bytes of the tensor are set, and the costs exactly if the labels paired are those of a
contraction. -/
structure Surveyed (size : Label → Int) (elementBytes : Int) (e : Entry)
    (pair : Option Operands) : Prop where
  tensorSize : e.measures.tensorSize = some (elementBytes * (e.labels.map size).prod)
  operations : e.measures.operations =
    (pair.filter fun o => o.IsContraction).map fun o => o.operationCount size
  byteAccesses : e.measures.byteAccesses =
    (pair.filter fun o => o.IsContraction).map fun o => o.accessCount size

/-- What is not counted keeps the costs unset. -/
theorem Sized.surveyed (h : e.Sized size elementBytes)
    (hpair : ∀ o, pair = some o → ¬o.IsContraction) : e.Surveyed size elementBytes pair := by
  have hnone : (pair.filter fun o => o.IsContraction) = none := by
    cases pair with
    | none => rfl
    | some o => simp [hpair o rfl]
  refine ⟨h.tensorSize, ?_, ?_⟩
  · rw [hnone, ← h.unset]
    rfl
  · rw [hnone, ← h.unset]
    rfl

end Entry

namespace Branch

variable {size : Label → Int} {elementBytes : Int} {s s' : Survey} {e e' : Entry} {l r : Branch}
  {b b' : Branch}

/-- The operations for each byte moved, if any byte is. -/
def intensity? (elementBytes operations byteAccesses : Int) : Option Binary64 :=
  if byteAccesses * elementBytes = 0 then none
  else Binary64.quotient? operations (byteAccesses * elementBytes)

/-- The operations for each byte moved are in the range of the format. -/
def IntensityInRange (elementBytes operations byteAccesses : Int) : Prop :=
  byteAccesses * elementBytes ≠ 0 →
    (Binary64.quotient? operations (byteAccesses * elementBytes)).isSome

theorem intensityInRange_iff {x : Extents} :
    IntensityInRange elementBytes x.operations x.byteAccesses ↔
      ¬(x.byteAccesses * elementBytes ≠ 0 &&
        (Binary64.quotient? x.operations (x.byteAccesses * elementBytes)).isNone) := by
  rw [IntensityInRange, Bool.and_eq_true, decide_eq_true_eq, not_and, Bool.not_eq_true,
    Option.isNone_eq_false_iff]

/-- A count that does not end the survey sets the costs and adds them to the totals. -/
theorem countContraction_ok {x : Extents}
    (h : countContraction elementBytes s e x = (s', e', none)) :
    s'.totals = { s.totals with
      operations := s.totals.operations + x.operations
      contractions := s.totals.contractions ++ [e.id] } ∧
    IntensityInRange elementBytes x.operations x.byteAccesses ∧
    e' = { e with measures := { e.measures with
      operations := some x.operations
      byteAccesses := some x.byteAccesses
      arithmeticIntensity := intensity? elementBytes x.operations x.byteAccesses } } := by
  unfold countContraction at h
  dsimp only at h
  split at h
  · simp at h
  · next hrange =>
    simp only [Prod.mk.injEq, and_true] at h
    obtain ⟨rfl, rfl⟩ := h
    exact ⟨rfl, intensityInRange_iff.mpr hrange, rfl⟩

/-- What a visit that does not end the survey has done: nothing, if the node does not pair two
tensors; it has noted a faulty node, or counted a contraction. -/
theorem visitOperations_cases
    (h : visitOperations (fun label => .ok (size label)) elementBytes s e l r = (s', e', none)) :
    ((node e l r).paired? = none ∧ s' = s ∧ e' = e) ∨
    (∃ o, (node e l r).paired? = some o ∧ ¬o.IsContraction ∧
      s'.totals = { s.totals with faulty := s.totals.faulty ++ [e.id] } ∧ e' = e) ∨
    ∃ o, (node e l r).paired? = some o ∧ o.IsContraction ∧
      s'.totals = { s.totals with
        operations := s.totals.operations + o.operationCount size
        contractions := s.totals.contractions ++ [e.id] } ∧
      IntensityInRange elementBytes (o.operationCount size) (o.accessCount size) ∧
      e' = { e with measures := { e.measures with
        operations := some (o.operationCount size)
        byteAccesses := some (o.accessCount size)
        arithmeticIntensity :=
          intensity? elementBytes (o.operationCount size) (o.accessCount size) } } := by
  unfold visitOperations at h
  split at h
  · next hchildren =>
    simp only [Prod.mk.injEq, and_true] at h
    exact Or.inl ⟨paired?_eq_none.mpr (by rw [isContraction_node, hchildren]; decide),
      h.1.symm, h.2.symm⟩
  · next hchildren =>
    have hpair := paired?_of_children (e := e) hchildren
    split at h
    · next error hd =>
      simp only [Prod.mk.injEq, and_true] at h
      obtain ⟨rfl, rfl⟩ := h
      exact Or.inr (Or.inl ⟨_, hpair, (Operands.dimensions_error hd).1, rfl, rfl⟩)
    · next d hd =>
      obtain ⟨x, hx, hoperations, haccesses⟩ := Operands.extents_of_dimensions size hd
      rw [hx] at h
      obtain ⟨htotals, hrange, he⟩ := countContraction_ok h
      rw [hoperations] at htotals hrange he
      rw [haccesses] at hrange he
      exact Or.inr (Or.inr ⟨_, hpair, (Operands.dimensions_ok hd).1, htotals, hrange, he⟩)

/-- A visit turns what carries a size alone into what has been surveyed, and keeps the tally. The
node may have been seen with other measures below it. -/
theorem visitOperations_step {l' r' : Branch} {seen : List Branch}
    (hpair : (node e l' r').paired? = (node e l r).paired?) (he : e.Sized size elementBytes)
    (hs : s.totals.Tally size seen)
    (h : visitOperations (fun label => .ok (size label)) elementBytes s e l' r' = (s', e', none)) :
    e'.withoutMeasures = e.withoutMeasures ∧
      e'.Surveyed size elementBytes (node e l r).paired? ∧
      s'.totals.Tally size (seen ++ [node e l r]) := by
  rw [← hpair]
  rcases visitOperations_cases h with ⟨hnone, rfl, rfl⟩ | ⟨o, ho, hno, htotals, rfl⟩ |
    ⟨o, ho, hyes, htotals, -, rfl⟩
  · refine ⟨rfl, he.surveyed (by simp [hnone]), hs.skip ?_⟩
    rw [← hpair, hnone]
  · refine ⟨rfl, he.surveyed (by simp [ho, hno]), ?_⟩
    rw [htotals]
    exact hs.addFaulty (hpair ▸ ho) rfl hno
  · refine ⟨rfl, ⟨he.tensorSize, ?_, ?_⟩, ?_⟩
    · simp [ho, hyes]
    · simp [ho, hyes]
    · rw [htotals]
      exact hs.addCounted (hpair ▸ ho) rfl hyes

/-- What a survey that reaches the top of a branch has found. -/
theorem sweep_visitOperations {survey : Survey}
    (hb : b.Every fun e _ => e.Sized size elementBytes)
    (h : sweep (visitOperations (fun label => .ok (size label)) elementBytes) {} b =
      (survey, b', none)) :
    b'.withoutMeasures = b.withoutMeasures ∧ b'.Every (Entry.Surveyed size elementBytes) ∧
      survey.totals.Tally size b.postorder := by
  have hrun := sweep_every (Q := Entry.Surveyed size elementBytes)
    (I := fun s seen => s.totals.Tally size seen)
    (fun hpair he hs hv => visitOperations_step hpair he hs hv) hb Totals.tally_nil h
  rwa [List.nil_append] at hrun

end Branch

end Contraction
