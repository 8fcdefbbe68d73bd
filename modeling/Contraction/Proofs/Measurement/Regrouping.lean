import Contraction.Proofs.Branch.Edits
import Contraction.Proofs.Measurement.Mirror
import Contraction.Proofs.Number.Spans

/-!
# Figures regrouped

An exchange of operands changes the order of the figures of a branch. A permutation that is put over
a node has its bytes, and what the node came to is then what the new one comes to. Either way the
same sizes occur and the same findings, and the totals and almost all measures depend on nothing
else: only the share of a size among all bytes also depends on how often sizes occur, and on the
order in which they are added up.

* `swapAt_figures`, `wrapAt_figures` — the figures after an edit
* `Regrouped` — the same sizes and the same findings
* `Regrouped.inRange`, `Regrouped.measures` — what then stays the same
-/

namespace Contraction

open Number

/-! ## The figures after an edit -/

namespace Branch

variable {size : Label → Int} {elementBytes : Int} {n m b b' l l' r r' : Branch} {e : Entry}
  {id newId : String}

/-- What a node pairs depends on its children by their labels alone. -/
theorem paired?_congr_children (hl : l'.isAbsent = l.isAbsent) (hll : l'.labels = l.labels)
    (hr : r'.isAbsent = r.isAbsent) (hrl : r'.labels = r.labels) :
    (node e l' r').paired? = (node e l r).paired? := by
  have hoperands : (node e l' r').operands = (node e l r).operands := by
    show Operands.mk e.labels l'.labels r'.labels = ⟨e.labels, l.labels, r.labels⟩
    rw [hll, hrl]
  rw [paired?, paired?, isContraction_node, isContraction_node, hl, hr, hoperands]

theorem paired?_swapped (e : Entry) (l r : Branch) :
    (node e r l).paired? = (node e l r).paired?.map Operands.swap := by
  cases l <;> cases r <;> rfl

/-- The figures of a node that is replaced by one with its labels are one block of those of the
branch, and the other ones stay. -/
theorem Replaced.figures (size : Label → Int) (elementBytes : Int) (h : Replaced n m b b')
    (hlabels : m.labels = n.labels) (habsent : m.isAbsent = n.isAbsent) :
    ∃ before after, b.figures size elementBytes = before ++ n.figures size elementBytes ++ after ∧
      b'.figures size elementBytes = before ++ m.figures size elementBytes ++ after := by
  induction h with
  | here => exact ⟨[], [], by simp, by simp⟩
  | @left e l l' r h ih =>
    obtain ⟨before, after, hb, hb'⟩ := ih
    have hpair : (node e l' r).paired? = (node e l r).paired? :=
      paired?_congr_children (h.isAbsent_eq habsent) (h.labels_eq hlabels) rfl rfl
    refine ⟨before, after ++ r.figures size elementBytes ++
      [e.figure size elementBytes (node e l r).paired?], ?_, ?_⟩
    · simp [hb]
    · simp [hb', hpair]
  | @right e l r r' h ih =>
    obtain ⟨before, after, hb, hb'⟩ := ih
    have hpair : (node e l r').paired? = (node e l r).paired? :=
      paired?_congr_children rfl rfl (h.isAbsent_eq habsent) (h.labels_eq hlabels)
    refine ⟨l.figures size elementBytes ++ before,
      after ++ [e.figure size elementBytes (node e l r).paired?], ?_, ?_⟩
    · simp [hb]
    · simp [hb', hpair]

/-- An exchange of operands changes the order of the figures and nothing else. -/
theorem swapAt_figures (size : Label → Int) (elementBytes : Int) (h : b.swapAt id = some b') :
    (b'.figures size elementBytes).Perm (b.figures size elementBytes) := by
  obtain ⟨e, l, r, -, -, hreplaced⟩ := swapAt_eq_some h
  obtain ⟨before, after, hb, hb'⟩ := hreplaced.figures size elementBytes rfl rfl
  have hfigure : e.figure size elementBytes (node e r l).paired? =
      e.figure size elementBytes (node e l r).paired? := by
    rw [paired?_swapped, Entry.figure, Entry.figure, Option.map_map]
    congr 2
    exact funext (Operands.finding_swap size)
  rw [hb, hb', figures_node, figures_node, hfigure]
  have hswap : (r.figures size elementBytes ++ l.figures size elementBytes).Perm
      (l.figures size elementBytes ++ r.figures size elementBytes) := List.perm_append_comm
  exact ((hswap.append_right _).append_left before).append_right after

/-- The new node has the figures that the node with the id had, which keeps its bytes alone. -/
theorem wrapAt_figures (size : Label → Int) (elementBytes : Int)
    (h : b.wrapAt id newId = some b') :
    ∃ before after f, f.id = id ∧ b.figures size elementBytes = before ++ [f] ++ after ∧
      b'.figures size elementBytes =
        before ++ [{ f with id := newId }, { f with finding := none }] ++ after := by
  obtain ⟨e, l, r, hfind, hreplaced⟩ := wrapAt_eq_some h
  obtain ⟨before, after, hb, hb'⟩ := hreplaced.figures size elementBytes rfl rfl
  have hid : e.id = id := Option.some.inj (id?_of_find? hfind)
  refine ⟨before ++ (l.figures size elementBytes ++ r.figures size elementBytes), after,
    e.figure size elementBytes (node e l r).paired?, hid, ?_, ?_⟩
  · simp [hb]
  · rw [hb', wrap, figures_node, figures_node, figures_absent]
    -- the permutation has one child, and the new node has the two that it had
    have hnone : ∀ x e' : Entry, (node x (node e' l r) absent).paired? = none := fun _ _ => rfl
    have hinner : (node (Entry.mark { id := newId, labels := e.labels, sizes := e.sizes }) l
        r).paired? = (node e l r).paired? := by
      cases l <;> cases r <;> rfl
    rw [hnone, hinner]
    simp [Entry.figure, Entry.mark]

end Branch

/-! ## Measures apart from totals -/

/-- The measures without the share of the sum of all bytes and without the total at the top. -/
def Measures.withoutTotals (m : Measures) : Measures :=
  { m with sizePercentage := none, totalOperations := none }

namespace Scale

variable {s s' : Scale} {f f' : Figure}

theorem withoutTotals_sizeMeasures (hspan : s'.sizeSpan = s.sizeSpan)
    (hbytes : f'.bytes = f.bytes) :
    (s'.sizeMeasures f').withoutTotals = (s.sizeMeasures f).withoutTotals := by
  simp only [sizeMeasures, Measures.withoutTotals, hspan, hbytes]

theorem withoutTotals_soundMeasures (helement : s'.elementBytes = s.elementBytes)
    (hspan : s'.sizeSpan = s.sizeSpan) (htotal : s'.operationTotal = s.operationTotal)
    (hshare : s'.shareSpan = s.shareSpan) (hbytes : f'.bytes = f.bytes)
    (hfinding : f'.finding = f.finding) :
    (s'.soundMeasures f').withoutTotals = (s.soundMeasures f).withoutTotals := by
  have hoperations : f'.operations? = f.operations? := by
    rw [Figure.operations?, hfinding]
    rfl
  simp only [soundMeasures, surveyedMeasures, hoperations, hfinding, helement, htotal, hshare,
    sizeMeasures, hspan, hbytes]
  rcases f.finding with _ | _ | _ <;> rcases f.operations? with _ | _ <;>
    simp only [Measures.withoutTotals]

end Scale

/-- Where no node is faulty and the numbers are in range, the shares of the operations are plain. -/
theorem InRange.isPlain_share {figures : List Figure} {elementBytes : Int}
    (hr : InRange elementBytes figures)
    (hsound : (Totals.ofFigures figures).sound) {z : Binary64}
    (hz : z ∈ ((figures.filterMap Figure.operations?).map Binary64.ofInt).map
      (Binary64.percentOf (Scale.wholeOf (Totals.ofFigures figures).operations))) : z.IsPlain := by
  obtain ⟨htotal, hcounts⟩ := hr.shares hsound
  rw [List.map_map] at hz
  obtain ⟨n, hn, rfl⟩ := List.mem_map.mp hz
  obtain ⟨f, hf, hn⟩ := List.mem_filterMap.mp hn
  refine Binary64.isPlain_percentOf (m := (Totals.ofFigures figures).operations) ?_ htotal
    (hcounts f hf n hn)
  rw [Scale.wholeOf]
  split
  · exact Or.inr rfl
  · exact Or.inl rfl

/-! ## The same sizes and the same findings -/

/-- The same sizes occur, and the nodes come to the same, whichever nodes they are. -/
structure Regrouped (figures figures' : List Figure) : Prop where
  bytes : ∀ n, n ∈ figures'.map Figure.bytes ↔ n ∈ figures.map Figure.bytes
  findings : (figures'.filterMap Figure.finding).Perm (figures.filterMap Figure.finding)

namespace Regrouped

variable {figures figures' : List Figure} {f f' : Figure} {finding : Finding} {elementBytes : Int}

theorem of_perm (h : figures'.Perm figures) : Regrouped figures figures' where
  bytes := fun _ => (h.map _).mem_iff
  findings := h.filterMap _

/-- A node hands what it comes to on to another one with its bytes. -/
theorem of_handedOn (before after : List Figure) (f : Figure) (newId : String) :
    Regrouped (before ++ [f] ++ after)
      (before ++ [{ f with id := newId }, { f with finding := none }] ++ after) where
  bytes := by
    intro n
    simp
  findings := by
    rw [List.filterMap_append, List.filterMap_append, List.filterMap_append, List.filterMap_append]
    have hpair : [{ f with id := newId }, { f with finding := none }].filterMap Figure.finding =
        [f].filterMap Figure.finding := by
      cases hf : f.finding <;> simp [hf]
    rw [hpair]

theorem exists_bytes (h : Regrouped figures figures') (hf : f' ∈ figures') :
    ∃ f ∈ figures, f.bytes = f'.bytes :=
  List.mem_map.mp ((h.bytes _).mp (List.mem_map_of_mem hf))

theorem exists_finding (h : Regrouped figures figures') (hf : f' ∈ figures')
    (hfinding : f'.finding = some finding) : ∃ f ∈ figures, f.finding = some finding :=
  List.mem_filterMap.mp
    (h.findings.mem_iff.mp (List.mem_filterMap.mpr ⟨f', hf, hfinding⟩))

/-! ### Totals -/

theorem operations (h : Regrouped figures figures') :
    (figures'.filterMap Figure.operations?).Perm (figures.filterMap Figure.operations?) := by
  have hfindings : ∀ figures : List Figure, figures.filterMap Figure.operations? =
      (figures.filterMap Figure.finding).filterMap Finding.operations? :=
    fun figures => (List.filterMap_filterMap ..).symm
  rw [hfindings, hfindings]
  exact h.findings.filterMap _

theorem totalOperations (h : Regrouped figures figures') :
    (Totals.ofFigures figures').operations = (Totals.ofFigures figures).operations :=
  h.operations.sum_eq

/-- As many nodes come to something of a kind. -/
theorem length_filter (h : Regrouped figures figures') {p : Figure → Bool} {q : Finding → Bool}
    (hp : ∀ f, p f = (f.finding.map q).getD false) :
    (figures'.filter p).length = (figures.filter p).length := by
  have hcount : ∀ figures : List Figure,
      (figures.filter p).length = (figures.filterMap Figure.finding).countP q := by
    intro figures
    rw [← List.countP_eq_length_filter, List.countP_filterMap]
    exact congrArg (List.countP · figures) (funext hp)
  rw [hcount, hcount, h.findings.countP_eq]

theorem length_faulty (h : Regrouped figures figures') :
    (Totals.ofFigures figures').faulty.length = (Totals.ofFigures figures).faulty.length := by
  rw [Totals.ofFigures, Totals.ofFigures, List.length_map, List.length_map]
  refine h.length_filter (q := fun finding => finding == .faulty) fun f => ?_
  rcases f with ⟨id, bytes, _ | _ | _⟩ <;> rfl

theorem length_contractions (h : Regrouped figures figures') :
    (Totals.ofFigures figures').contractions.length =
      (Totals.ofFigures figures).contractions.length := by
  rw [Totals.ofFigures, Totals.ofFigures, List.length_map, List.length_map]
  refine h.length_filter (q := fun finding => finding.operations?.isSome) fun f => ?_
  rcases f with ⟨id, bytes, _ | _ | _⟩ <;> rfl

theorem sound (h : Regrouped figures figures') :
    (Totals.ofFigures figures').sound = (Totals.ofFigures figures).sound := by
  rw [Totals.sound, Totals.sound, Bool.eq_iff_iff, List.isEmpty_iff_length_eq_zero,
    List.isEmpty_iff_length_eq_zero, h.length_faulty]

theorem settled_operations (h : Regrouped figures figures') :
    (Totals.ofFigures figures').settled.operations =
      (Totals.ofFigures figures).settled.operations := by
  rw [Totals.settled, Totals.settled, h.sound]
  split
  · exact h.totalOperations
  · rfl

theorem settled_contractions (h : Regrouped figures figures') :
    (Totals.ofFigures figures').settled.contractions.length =
      (Totals.ofFigures figures).settled.contractions.length := by
  rw [Totals.settled, Totals.settled, h.sound]
  split
  · exact h.length_contractions
  · rfl

theorem settled_faulty (h : Regrouped figures figures') :
    (Totals.ofFigures figures').settled.faulty.length =
      (Totals.ofFigures figures).settled.faulty.length := by
  rw [Totals.settled_faulty, Totals.settled_faulty, h.length_faulty]

theorem inRange (h : Regrouped figures figures') (hr : InRange elementBytes figures) :
    InRange elementBytes figures' where
  sizes := by
    intro f' hf'
    obtain ⟨f, hf, hbytes⟩ := h.exists_bytes hf'
    exact hbytes ▸ hr.sizes f hf
  intensities := by
    intro f' hf' operations byteAccesses hfinding
    obtain ⟨f, hf, hfinding⟩ := h.exists_finding hf' hfinding
    exact hr.intensities f hf operations byteAccesses hfinding
  shares := by
    intro hsound
    rw [h.sound] at hsound
    obtain ⟨htotal, hcounts⟩ := hr.shares hsound
    rw [h.totalOperations]
    refine ⟨htotal, fun f' hf' n hn => ?_⟩
    obtain ⟨finding, hfinding, hn⟩ := Option.bind_eq_some_iff.mp hn
    obtain ⟨f, hf, hfinding⟩ := h.exists_finding hf' hfinding
    exact hcounts f hf n (Option.bind_eq_some_iff.mpr ⟨finding, hfinding, hn⟩)

/-! ### Scales -/

theorem sizeSpan (h : Regrouped figures figures') :
    (Scale.ofFigures elementBytes figures').sizeSpan =
      (Scale.ofFigures elementBytes figures).sizeSpan := by
  refine (Binary64.spanOf_congr ?_ fun z => ?_).symm
  · intro z hz
    obtain ⟨f, -, rfl⟩ := List.mem_map.mp hz
    exact Binary64.isPlain_ofInt f.bytes
  · have hbytes : ∀ figures : List Figure, (z ∈ figures.map fun f => Binary64.ofInt f.bytes) ↔
        ∃ n ∈ figures.map Figure.bytes, Binary64.ofInt n = z := by
      simp
    rw [hbytes, hbytes]
    exact exists_congr fun n => and_congr_left fun _ => (h.bytes n).symm

theorem shareSpan (h : Regrouped figures figures') (hr : InRange elementBytes figures)
    (hsound : (Totals.ofFigures figures).sound) :
    (Scale.ofFigures elementBytes figures').shareSpan =
      (Scale.ofFigures elementBytes figures).shareSpan := by
  have hcounts := (h.operations.map Binary64.ofInt).map
    (Binary64.percentOf (Scale.wholeOf (Totals.ofFigures figures).operations))
  have hspan := Binary64.spanOf_congr (fun z hz => hr.isPlain_share hsound hz)
    fun z => hcounts.symm.mem_iff
  rw [Scale.ofFigures, h.totalOperations]
  exact hspan.symm

/-- The nodes with the same figures have the same measures, apart from totals. -/
theorem measures (h : Regrouped figures figures') (hr : InRange elementBytes figures)
    (hbytes : f'.bytes = f.bytes) (hfinding : f'.finding = f.finding) :
    ((Scale.ofFigures elementBytes figures').measures f').withoutTotals =
      ((Scale.ofFigures elementBytes figures).measures f).withoutTotals := by
  have hsame : (Scale.ofFigures elementBytes figures').sound =
      (Scale.ofFigures elementBytes figures).sound := h.sound
  rw [Scale.measures, Scale.measures, hsame]
  by_cases hsound : (Scale.ofFigures elementBytes figures).sound
  · have htotal : (Scale.ofFigures elementBytes figures').operationTotal =
        (Scale.ofFigures elementBytes figures).operationTotal :=
      congrArg Scale.wholeOf h.totalOperations
    rw [if_pos hsound, if_pos hsound]
    exact Scale.withoutTotals_soundMeasures rfl h.sizeSpan htotal (h.shareSpan hr hsound) hbytes
      hfinding
  · rw [if_neg hsound, if_neg hsound]
    exact Scale.withoutTotals_sizeMeasures h.sizeSpan hbytes

end Regrouped

end Contraction
