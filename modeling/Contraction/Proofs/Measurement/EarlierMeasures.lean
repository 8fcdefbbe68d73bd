import Contraction.Proofs.Measurement.Sizing

/-!
# What earlier measurements leave

A measurement looks at the ids and the labels of a branch. Whatever else its nodes carry, such as
the measures of earlier measurements, it answers the same and sets the same measures, and it changes
nothing else. So it is as if the earlier measurements had not been made: those by other sizes and
under other settings, those at nodes further down, and those that were stopped on the way.

* `costs_settled` — the measures after a measurement as a function of ids and labels
* `Remeasured` — any number of measurements, each at some node
* `measure_of_outline` — a measurement of branches that differ in all but ids and labels
-/

namespace Contraction

/-- The id and the labels of a node, and nothing else. -/
def Entry.outline (e : Entry) : Entry :=
  { id := e.id, labels := e.labels }

/-- The id, the labels and the measures of a node. -/
def Entry.costs (e : Entry) : Entry :=
  { e.outline with measures := e.measures }

namespace Branch

variable {size : Label → Int} {elementBytes total : Int} {b b' n m : Branch}
  {g : Figure → Measures} {P : Label → Prop} {sizes : Table Datum} {settings : Settings}
  {totals : Totals}

/-- The nodes with their ids and their labels. -/
def outline : Branch → Branch :=
  mapEntries Entry.outline

/-- The nodes with their ids, their labels and their measures. -/
def costs : Branch → Branch :=
  mapEntries Entry.costs

/-! ## Ids and labels -/

theorem figures_outline (b : Branch) :
    b.outline.figures size elementBytes = b.figures size elementBytes :=
  figures_mapEntries (f := Entry.outline) (fun _ => rfl) (fun _ => rfl) b

theorem figures_of_outline (h : b'.outline = b.outline) :
    b'.figures size elementBytes = b.figures size elementBytes := by
  rw [← figures_outline b', h, figures_outline]

theorem allLabels_outline (b : Branch) : b.outline.AllLabels P ↔ b.AllLabels P := by
  induction b with
  | absent => exact Iff.rfl
  | node e l r ihl ihr =>
    show (node e.outline l.outline r.outline).AllLabels P ↔ _
    rw [allLabels_node, allLabels_node, ihl, ihr]
    rfl

/-- Without the measures the outline is still there. -/
theorem outline_congr (h : b'.withoutMeasures = b.withoutMeasures) : b'.outline = b.outline := by
  have hkept : ∀ b : Branch, b.withoutMeasures.outline = b.outline :=
    mapEntries_mapEntries Entry.withoutMeasures Entry.outline
  rw [← hkept b', h, hkept]

/-! ## Measures by ids and labels -/

theorem costs_withMeasures (b : Branch) : (b.withMeasures size elementBytes g).costs =
    b.outline.withMeasures size elementBytes g :=
  (withMeasures_mapEntries (f := Entry.outline) (h := Entry.costs) (fun _ => rfl) (fun _ => rfl)
    (fun _ _ => rfl) b).symm

theorem costs_setTotal (b : Branch) : (b.setTotal total).costs = b.costs.setTotal total := by
  cases b <;> rfl

/-- What a measurement that comes to its end leaves, seen without sizes and marks. -/
theorem costs_settled (b : Branch) :
    (b.settled size elementBytes).costs = b.outline.settled size elementBytes := by
  unfold settled
  rw [figures_outline]
  dsimp only
  split
  · rw [costs_setTotal, costs_withMeasures]
  · exact costs_withMeasures b

/-! ## Measurements made before -/

/-- A measurement leaves all but the measures alone, whatever its settings. -/
theorem measure_keeps (sizes : Table Datum) (settings : Settings) (b : Branch) :
    (b.measure sizes settings).branch.withoutMeasures = b.withoutMeasures := by
  unfold measure
  split
  · rfl
  · exact measureUnder_keeps sizes _ b

theorem Replaced.withoutMeasures_eq (h : Replaced n m b b')
    (hn : m.withoutMeasures = n.withoutMeasures) : b'.withoutMeasures = b.withoutMeasures := by
  induction h with
  | here => exact hn
  | left h ih => rw [withoutMeasures_node, withoutMeasures_node, ih]
  | right h ih => rw [withoutMeasures_node, withoutMeasures_node, ih]

/-- The branch after any number of measurements, each at some node of it, by any sizes and under any
settings, whether it comes to its end or not. -/
inductive Remeasured (b : Branch) : Branch → Prop where
  | none : Remeasured b b
  | next {b' b'' n : Branch} (sizes : Table Datum) (settings : Settings) (h : Remeasured b b')
      (hn : Replaced n (n.measure sizes settings).branch b' b'') : Remeasured b b''

theorem Remeasured.withoutMeasures_eq (h : Remeasured b b') :
    b'.withoutMeasures = b.withoutMeasures := by
  induction h with
  | none => rfl
  | next sizes settings h hn ih =>
    exact (hn.withoutMeasures_eq (measure_keeps sizes settings _)).trans ih

/-- A measurement that comes to its end does so on every branch with the same ids and labels, with
the same answer and the same measures at every node; all else the two branches keep. After any
measurements of a branch it leaves the same branch, and so it does when it is made once more. -/
theorem measure_of_outline (hb : b'.outline = b.outline)
    (h : (b.measure sizes settings).outcome = .ok totals) :
    ((b'.measure sizes settings).outcome = .ok totals ∧
      (b'.measure sizes settings).branch.costs = (b.measure sizes settings).branch.costs) ∧
    ((b.measure sizes settings).branch.withoutMeasures = b.withoutMeasures ∧
      (b'.measure sizes settings).branch.withoutMeasures = b'.withoutMeasures) ∧
    (∀ before, Remeasured b before → (before.measure sizes settings).outcome = .ok totals ∧
      (before.measure sizes settings).branch = (b.measure sizes settings).branch) ∧
    ((b.measure sizes settings).branch.measure sizes settings).outcome = .ok totals ∧
      ((b.measure sizes settings).branch.measure sizes settings).branch =
        (b.measure sizes settings).branch := by
  obtain ⟨size, elementBytes, hrange, hmeasure⟩ := exists_figures_of_measured h
  -- what comes of any branch with the outline is said by its figures, and these are the same
  have hsame : ∀ c : Branch, c.outline = b.outline →
      (c.measure sizes settings).outcome =
          .ok (Totals.ofFigures (b.figures size elementBytes)).settled ∧
        (c.measure sizes settings).branch = c.settled size elementBytes := by
    intro c hc
    have hlabels : ∀ P, b.AllLabels P → c.AllLabels P := by
      intro P hP
      rw [← allLabels_outline, hc, allLabels_outline]
      exact hP
    have hfigures : c.figures size elementBytes = b.figures size elementBytes :=
      figures_of_outline hc
    have hmeasured := hmeasure c hlabels (hfigures ▸ hrange)
    rw [hfigures] at hmeasured
    exact hmeasured
  obtain ⟨houtcome, hbranch⟩ := hsame b rfl
  obtain ⟨houtcome', hbranch'⟩ := hsame b' hb
  obtain rfl := Except.ok.inj (houtcome.symm.trans h)
  have hbefore : ∀ before, Remeasured b before →
      (before.measure sizes settings).outcome =
          .ok (Totals.ofFigures (b.figures size elementBytes)).settled ∧
        (before.measure sizes settings).branch = (b.measure sizes settings).branch := by
    intro before hearlier
    have hkept := hearlier.withoutMeasures_eq
    obtain ⟨houtcome, hsettled⟩ := hsame before (outline_congr hkept)
    exact ⟨houtcome, by rw [hsettled, hbranch, settled_congr hkept]⟩
  refine ⟨⟨houtcome', ?_⟩, ⟨measure_keeps sizes settings b, measure_keeps sizes settings b'⟩,
    hbefore, ?_⟩
  · rw [hbranch', hbranch, costs_settled, costs_settled, hb]
  · exact hbefore _ (.next sizes settings .none .here)

/-- The operations that a node had before it became faulty are gone after the next measurement. -/
theorem measure_of_outline_faulty :
    let tree (m : Measures) : Branch :=
      .node { id := "top", labels := [some "i", some "x"], measures := m }
        (.node { id := "left", labels := [some "i", some "k"] } .absent .absent)
        (.node { id := "right", labels := [some "k", some "j"], measures := m } .absent .absent)
    let fresh := tree {}
    let stale := tree { operations := some 12, byteAccesses := some 8, totalOperations := some 12 }
    ∃ totals, (fresh.measure .empty {}).outcome = .ok totals ∧ totals.faulty = ["top"] ∧
      (stale.measure .empty {}).outcome = .ok totals ∧
      (stale.measure .empty {}).branch.costs = (fresh.measure .empty {}).branch.costs ∧
      ((stale.measure .empty {}).branch.entry?.map fun e => e.measures.operations) = some none := by
  intro tree fresh stale
  obtain ⟨totals, hmeasured, hfaulty⟩ := exists_ok_of_any (x := (fresh.measure .empty {}).outcome)
    (p := fun t => t.faulty == ["top"]) (by decide +kernel)
  have houtline : stale.outline = fresh.outline := rfl
  obtain ⟨⟨houtcome, hcosts⟩, -⟩ := measure_of_outline houtline hmeasured
  exact ⟨totals, hmeasured, eq_of_beq hfaulty, houtcome, hcosts, by decide +kernel⟩

end Branch

end Contraction
