import Contraction.Proofs.Branch.Replacement
import Contraction.Proofs.Measurement.Survey

/-!
# Figures

What a measurement leaves at a node follows from a few figures of it and from what is known of all
nodes together. `Figure` has the bytes of the tensor and what the node comes to as a contraction;
`Scale` has the wholes and the spans to which the shares relate, and `Scale.measures` puts them
together. The figures of a branch are listed in post-order; only the sum of all bytes depends on it.
-/

namespace Contraction

open Number

/-- What a node with two children comes to. -/
inductive Finding where
  | faulty
  | counted (operations byteAccesses : Int)
deriving DecidableEq

/-- The operations of a contraction. -/
def Finding.operations? : Finding → Option Int
  | faulty => none
  | counted operations _ => some operations

/-- The figures of a node: its bytes, and what it comes to if it has two children. -/
structure Figure where
  id : String
  bytes : Int
  finding : Option Finding
deriving DecidableEq

/-- What a node comes to that pairs some labels. -/
def Operands.finding (size : Label → Int) (o : Operands) : Finding :=
  if o.IsContraction then .counted (o.operationCount size) (o.accessCount size) else .faulty

/-- The figures of a node by what it carries and the labels it pairs. -/
def Entry.figure (size : Label → Int) (elementBytes : Int) (e : Entry) (pair : Option Operands) :
    Figure where
  id := e.id
  bytes := (e.labels.map size).prod * elementBytes
  finding := pair.map fun o => o.finding size

namespace Branch

variable {size : Label → Int} {elementBytes : Int} {b b' l r : Branch} {e : Entry}

/-- The figures of the topmost node. -/
def figure? (size : Label → Int) (elementBytes : Int) (b : Branch) : Option Figure :=
  b.entry?.map fun e => e.figure size elementBytes b.paired?

/-- The figures of the nodes, in post-order. -/
def figures (size : Label → Int) (elementBytes : Int) (b : Branch) : List Figure :=
  b.postorder.filterMap (figure? size elementBytes)

@[simp] theorem figures_absent : figures size elementBytes absent = [] := by
  rw [figures, postorder_absent, List.filterMap_nil]

@[simp] theorem figures_node : (node e l r).figures size elementBytes =
    l.figures size elementBytes ++ r.figures size elementBytes ++
      [e.figure size elementBytes (node e l r).paired?] := by
  simp only [figures, postorder_node, List.filterMap_append, List.filterMap_cons,
    List.filterMap_nil, figure?, entry?, Option.map_some]

/-- Figures are made of ids and labels. -/
theorem figures_mapEntries {f : Entry → Entry} (hid : ∀ e, (f e).id = e.id)
    (hlabels : ∀ e, (f e).labels = e.labels) (b : Branch) :
    (b.mapEntries f).figures size elementBytes = b.figures size elementBytes := by
  induction b with
  | absent => rfl
  | node e l r ihl ihr =>
    have hpair := paired?_mapEntries hlabels (node e l r)
    rw [mapEntries] at hpair ⊢
    rw [figures_node, figures_node, ihl, ihr, hpair, Entry.figure, Entry.figure, hid, hlabels]

theorem figures_congr (h : b'.withoutMeasures = b.withoutMeasures) :
    b'.figures size elementBytes = b.figures size elementBytes := by
  have hkept : ∀ b : Branch,
      b.withoutMeasures.figures size elementBytes = b.figures size elementBytes :=
    figures_mapEntries (fun _ => rfl) fun _ => rfl
  rw [← hkept b', h, hkept]

theorem mem_figures {f : Figure} : f ∈ b.figures size elementBytes ↔
    ∃ e l r, node e l r ∈ b.postorder ∧ e.figure size elementBytes (node e l r).paired? = f := by
  rw [figures, List.mem_filterMap]
  constructor
  · rintro ⟨n, hn, hf⟩
    cases n with
    | absent => cases hf
    | node e l r => exact ⟨e, l, r, hn, Option.some.inj hf⟩
  · rintro ⟨e, l, r, hn, rfl⟩
    exact ⟨_, hn, rfl⟩

/-- What a measure says of the nodes, where it says at each what its figures do. -/
theorem filterMap_measure {α : Type} (field : Measures → Option α) (value : Figure → Option α)
    (h : b.Every fun e pair => field e.measures = value (e.figure size elementBytes pair)) :
    (b.postorder.filterMap fun n => n.entry?.bind fun e => field e.measures) =
      (b.figures size elementBytes).filterMap value := by
  induction b with
  | absent => rw [postorder_absent, figures_absent, List.filterMap_nil, List.filterMap_nil]
  | node e l r ihl ihr =>
    obtain ⟨htop, hl, hr⟩ := every_node.mp h
    rw [postorder_node, figures_node, List.filterMap_append, List.filterMap_append, ihl hl, ihr hr,
      List.filterMap_append, List.filterMap_append]
    congr 1
    show [node e l r].filterMap _ = [_].filterMap value
    rw [List.filterMap_cons, List.filterMap_cons, ← htop]
    rfl

/-! ## Setting all measures -/

variable {g : Figure → Measures}

/-- The branch with the measures of every node set by its figures. -/
def withMeasures (size : Label → Int) (elementBytes : Int) (g : Figure → Measures) :
    Branch → Branch
  | absent => absent
  | node e l r =>
    node { e with measures := g (e.figure size elementBytes (node e l r).paired?) }
      (l.withMeasures size elementBytes g) (r.withMeasures size elementBytes g)

theorem withoutMeasures_withMeasures (b : Branch) :
    (b.withMeasures size elementBytes g).withoutMeasures = b.withoutMeasures := by
  induction b with
  | absent => rfl
  | node e l r ihl ihr =>
    rw [withMeasures, withoutMeasures_node, withoutMeasures_node, ihl, ihr]
    rfl

/-- Setting measures by figures goes past a change that keeps ids and labels. -/
theorem withMeasures_mapEntries {f h : Entry → Entry} (hid : ∀ e, (f e).id = e.id)
    (hlabels : ∀ e, (f e).labels = e.labels)
    (hset : ∀ e m, { f e with measures := m } = h { e with measures := m }) (b : Branch) :
    (b.mapEntries f).withMeasures size elementBytes g =
      (b.withMeasures size elementBytes g).mapEntries h := by
  induction b with
  | absent => rfl
  | node e l r ihl ihr =>
    have hpair := paired?_mapEntries hlabels (node e l r)
    rw [mapEntries] at hpair ⊢
    rw [withMeasures, withMeasures, mapEntries, ihl, ihr, hpair, hset, Entry.figure, Entry.figure,
      hid, hlabels]

/-- The measures that there were do not matter. -/
theorem withMeasures_withoutMeasures (b : Branch) :
    b.withoutMeasures.withMeasures size elementBytes g = b.withMeasures size elementBytes g := by
  rw [withoutMeasures, withMeasures_mapEntries (f := Entry.withoutMeasures) (h := id)
    (fun _ => rfl) (fun _ => rfl) fun _ _ => rfl]
  exact mapEntries_eq_self fun _ _ => rfl

theorem withMeasures_congr (h : b'.withoutMeasures = b.withoutMeasures) :
    b'.withMeasures size elementBytes g = b.withMeasures size elementBytes g := by
  rw [← withMeasures_withoutMeasures b', h, withMeasures_withoutMeasures]

/-- A branch is known from its nodes apart from measures and from the measures of every node. -/
theorem eq_withMeasures (hb : b'.withoutMeasures = b.withoutMeasures)
    (h : b'.Every fun e pair => e.measures = g (e.figure size elementBytes pair)) :
    b' = b.withMeasures size elementBytes g := by
  rw [← withMeasures_congr hb]
  clear hb
  induction b' with
  | absent => rfl
  | node e l r ihl ihr =>
    obtain ⟨htop, hl, hr⟩ := every_node.mp h
    rw [withMeasures, ← ihl hl, ← ihr hr, ← htop]

theorem every_withMeasures (b : Branch) : (b.withMeasures size elementBytes g).Every
    fun e pair => e.measures = g (e.figure size elementBytes pair) := by
  induction b with
  | absent => exact every_absent
  | node e l r ihl ihr =>
    have hsame : ((node e l r).withMeasures size elementBytes g).paired? = (node e l r).paired? :=
      paired?_congr (withoutMeasures_withMeasures _)
    rw [withMeasures] at hsame ⊢
    refine every_node.mpr ⟨?_, ihl, ihr⟩
    rw [hsame]
    rfl

end Branch

/-! ## What is known of all nodes together -/

namespace Figure

/-- The operations of a contraction. -/
def operations? (f : Figure) : Option Int :=
  f.finding.bind Finding.operations?

def isFaulty (f : Figure) : Bool :=
  f.finding == some .faulty

end Figure

/-- The totals of some nodes, as long as faulty ones are only noted. -/
def Totals.ofFigures (figures : List Figure) : Totals where
  operations := (figures.filterMap Figure.operations?).sum
  faulty := (figures.filter Figure.isFaulty).map Figure.id
  contractions := (figures.filter fun f => f.operations?.isSome).map Figure.id

namespace Totals

variable {figures : List Figure} {f : Figure}

theorem ofFigures_skip (h : f.finding = none) : ofFigures (figures ++ [f]) = ofFigures figures := by
  simp [ofFigures, Figure.operations?, Figure.isFaulty, Finding.operations?, h]

theorem ofFigures_faulty (h : f.finding = some .faulty) : ofFigures (figures ++ [f]) =
    { ofFigures figures with faulty := (ofFigures figures).faulty ++ [f.id] } := by
  simp [ofFigures, Figure.operations?, Figure.isFaulty, Finding.operations?, h]

theorem ofFigures_counted {operations byteAccesses : Int}
    (h : f.finding = some (.counted operations byteAccesses)) : ofFigures (figures ++ [f]) =
    { ofFigures figures with
      operations := (ofFigures figures).operations + operations
      contractions := (ofFigures figures).contractions ++ [f.id] } := by
  simp [ofFigures, Figure.operations?, Figure.isFaulty, Finding.operations?, h]

/-- Without contractions no node has operations. -/
theorem operations?_of_uncounted (h : (ofFigures figures).contractions = []) (hf : f ∈ figures) :
    f.operations? = none := by
  rw [ofFigures, List.map_eq_nil_iff, List.filter_eq_nil_iff] at h
  exact Option.not_isSome_iff_eq_none.mp (h f hf)

theorem operations_of_uncounted (h : (ofFigures figures).contractions = []) :
    (ofFigures figures).operations = 0 := by
  have hnil : figures.filterMap Figure.operations? = [] :=
    List.filterMap_eq_nil_iff.mpr fun f hf => operations?_of_uncounted h hf
  rw [ofFigures, hnil]
  rfl

/-- The totals that are answered: with a faulty node, no operations are. -/
def settled (t : Totals) : Totals :=
  if t.sound then t else { faulty := t.faulty }

theorem settled_faulty (t : Totals) : t.settled.faulty = t.faulty := by
  rw [settled]
  split <;> rfl

end Totals

/-- What the shares of the nodes relate to. -/
structure Scale where
  elementBytes : Int
  sizeTotal : Binary64
  sizeSpan : Binary64.Span
  sound : Bool
  operationTotal : Binary64
  shareSpan : Binary64.Span

namespace Scale

/-- The total of the operations as a number, if it is positive. -/
def wholeOf (total : Int) : Binary64 :=
  if 0 < total then Binary64.ofInt total else .zero

/-- The scale of some nodes. -/
def ofFigures (elementBytes : Int) (figures : List Figure) : Scale :=
  let sizes := figures.map fun f => Binary64.ofInt f.bytes
  let counts := (figures.filterMap Figure.operations?).map Binary64.ofInt
  let total := wholeOf (Totals.ofFigures figures).operations
  { elementBytes
    sizeTotal := Binary64.sum sizes
    sizeSpan := Binary64.spanOf sizes
    sound := (Totals.ofFigures figures).sound
    operationTotal := total
    shareSpan := Binary64.spanOf (counts.map (Binary64.percentOf total)) }

/-- The measures of a node that concern its size. -/
def sizeMeasures (s : Scale) (f : Figure) : Measures where
  tensorSize := some f.bytes
  sizePercentage := some (Binary64.percentOf s.sizeTotal (Binary64.ofInt f.bytes))
  normalizedSizePercentage := some (s.sizeSpan.percent (Binary64.ofInt f.bytes))

/-- The measures of a node after the survey: its size, and its costs if it has been counted. -/
def surveyedMeasures (s : Scale) (f : Figure) : Measures :=
  match f.finding with
  | some (.counted operations byteAccesses) => { s.sizeMeasures f with
      operations := some operations
      byteAccesses := some byteAccesses
      arithmeticIntensity := Branch.intensity? s.elementBytes operations byteAccesses }
  | _ => s.sizeMeasures f

/-- The measures of a node where no node is faulty, apart from the total at the top. -/
def soundMeasures (s : Scale) (f : Figure) : Measures :=
  match f.operations? with
  | some operations =>
    let share := Binary64.percentOf s.operationTotal (Binary64.ofInt operations)
    { s.surveyedMeasures f with
      operationsPercentage := some share
      normalizedOperationsPercentage := some (s.shareSpan.percent share) }
  | none => s.surveyedMeasures f

/-- The measures of a node, apart from the total at the top. -/
def measures (s : Scale) (f : Figure) : Measures :=
  if s.sound then s.soundMeasures f else s.sizeMeasures f

theorem surveyedMeasures_operations (s : Scale) (f : Figure) :
    (s.surveyedMeasures f).operations = f.operations? := by
  rcases f with ⟨id, bytes, _ | _ | _⟩ <;> rfl

theorem withoutOperations_surveyedMeasures (s : Scale) (f : Figure) :
    (s.surveyedMeasures f).withoutOperations = s.sizeMeasures f := by
  rcases f with ⟨id, bytes, _ | _ | _⟩ <;> rfl

end Scale

/-- All numbers on the way are in the range of the format. -/
structure InRange (elementBytes : Int) (figures : List Figure) : Prop where
  sizes : ∀ f ∈ figures, (Binary64.ofInt f.bytes).isFinite
  intensities : ∀ f ∈ figures, ∀ operations byteAccesses,
    f.finding = some (.counted operations byteAccesses) →
      Branch.IntensityInRange elementBytes operations byteAccesses
  /-- Shares of the operations are only told where no node is faulty. -/
  shares : (Totals.ofFigures figures).sound →
    (Scale.wholeOf (Totals.ofFigures figures).operations).isFinite ∧
      ∀ f ∈ figures, ∀ n, f.operations? = some n → (Binary64.ofInt n).isFinite

end Contraction
