import Contraction.Proofs.Measurement.Settings
import Contraction.Proofs.Measurement.Sizing

/-!
# Costs under larger sizes

Which nodes are faulty is a matter of labels. The costs are products of positive sizes, so they grow
with these. For the operations this takes an argument, since they are a difference of two products
that grow: as each element of a node's tensor takes the same odd number of operations
(`operationCount_eq`), they are a product as well.

* `Grows` — numbers that are positive and no smaller, and what is made of them
* `Entry.CostsNoMore` — what that comes to for the costs of a node
* `Branch.measure_le_measure` — and for two measurements of a branch
-/

namespace Contraction

/-! ## Products of sizes -/

/-- A positive number, and one that is no smaller. -/
def Grows (m n : Int) : Prop :=
  1 ≤ m ∧ m ≤ n

theorem Grows.mul {a b c d : Int} (h : Grows a b) (h' : Grows c d) : Grows (a * c) (b * d) := by
  obtain ⟨ha, hab⟩ := h
  obtain ⟨hc, hcd⟩ := h'
  exact ⟨one_le_mul_of_one_le_of_one_le ha hc, mul_le_mul hab hcd (by omega) (by omega)⟩

theorem Grows.add {a b c d : Int} (h : Grows a b) (h' : Grows c d) : Grows (a + c) (b + d) := by
  unfold Grows at *
  omega

section Products

variable {size size' : Label → Int}

theorem grows_prod {labels : List Label} (h : ∀ label ∈ labels, Grows (size label) (size' label)) :
    Grows (labels.map size).prod (labels.map size').prod := by
  induction labels with
  | nil => exact ⟨le_refl 1, le_refl 1⟩
  | cons label labels ih =>
    obtain ⟨hfirst, hrest⟩ := List.forall_mem_cons.mp h
    rw [List.map_cons, List.map_cons, List.prod_cons, List.prod_cons]
    exact hfirst.mul (ih hrest)

theorem grows_finset {labels : Finset Label}
    (h : ∀ label ∈ labels, Grows (size label) (size' label)) :
    Grows (∏ label ∈ labels, size label) (∏ label ∈ labels, size' label) := by
  rw [← Finset.prod_map_toList, ← Finset.prod_map_toList]
  exact grows_prod fun label hlabel => h label (Finset.mem_toList.mp hlabel)

end Products

namespace Operands

variable {size size' : Label → Int} {o : Operands}

variable (h : ∀ label ∈ o.node ++ o.left ++ o.right, Grows (size label) (size' label))

include h

theorem grows_nodeVolume : Grows (o.nodeVolume size) (o.nodeVolume size') := by
  refine grows_finset fun label hlabel => h label ?_
  simp [List.mem_toFinset.mp hlabel]

theorem grows_extent (kind : Kind) : Grows (o.extent size kind) (o.extent size' kind) :=
  grows_finset fun label hlabel => h label (mem_of_mem_labelsOf hlabel)

theorem grows_operationCount : Grows (o.operationCount size) (o.operationCount size') := by
  have hsummed := grows_extent h .k
  have hodd : Grows (2 * o.extent size .k - 1) (2 * o.extent size' .k - 1) := by
    unfold Grows at *
    omega
  rw [operationCount_eq, operationCount_eq]
  exact (grows_nodeVolume h).mul hodd

theorem grows_accessCount : Grows (o.accessCount size) (o.accessCount size') := by
  have hleft := (grows_extent h .n).mul (grows_extent h .k)
  have hright := (grows_extent h .m).mul (grows_extent h .k)
  exact ((grows_nodeVolume h).add hleft).add hright

end Operands

/-! ## Nodes -/

/-- The costs of a node, and those of the same node that are set where these are and no smaller. -/
structure Entry.CostsNoMore (e e' : Entry) : Prop where
  sameNode : e'.withoutMeasures = e.withoutMeasures
  tensorSize : Option.Rel Grows e.measures.tensorSize e'.measures.tensorSize
  operations : Option.Rel Grows e.measures.operations e'.measures.operations
  byteAccesses : Option.Rel Grows e.measures.byteAccesses e'.measures.byteAccesses

/-- A node carries the bytes of its tensor, and the costs of a contraction where one is counted. -/
structure Entry.Carries (size : Label → Int) (elementBytes : Int) (counted : Option Operands)
    (e : Entry) : Prop where
  tensorSize : e.measures.tensorSize = some (elementBytes * (e.labels.map size).prod)
  operations : e.measures.operations = counted.map fun o => o.operationCount size
  byteAccesses : e.measures.byteAccesses = counted.map fun o => o.accessCount size

theorem Entry.Carries.costsNoMore {size size' : Label → Int} {elementBytes : Int}
    {counted : Option Operands} {e e' : Entry} (h : e.Carries size elementBytes counted)
    (h' : e'.Carries size' elementBytes counted) (hnode : e'.withoutMeasures = e.withoutMeasures)
    (hbytes : 0 < elementBytes) (hlabels : ∀ label ∈ e.labels, Grows (size label) (size' label))
    (hcounted : ∀ o, counted = some o →
      ∀ label ∈ o.node ++ o.left ++ o.right, Grows (size label) (size' label)) :
    e.CostsNoMore e' where
  sameNode := hnode
  tensorSize := by
    have hsame := congrArg Entry.labels hnode
    change e'.labels = e.labels at hsame
    have hscale : Grows elementBytes elementBytes := ⟨hbytes, le_refl elementBytes⟩
    rw [h.tensorSize, h'.tensorSize, hsame]
    exact .some (hscale.mul (grows_prod hlabels))
  operations := by
    rw [h.operations, h'.operations]
    cases counted with
    | none => exact .none
    | some o => exact .some (Operands.grows_operationCount (hcounted o rfl))
  byteAccesses := by
    rw [h.byteAccesses, h'.byteAccesses]
    cases counted with
    | none => exact .none
    | some o => exact .some (Operands.grows_accessCount (hcounted o rfl))

/-! ## Whole branches -/

namespace Branch

variable {b b' : Branch} {size size' : Label → Int} {elementBytes : Int} {totals totals' : Totals}

theorem Every.and {P Q : Entry → Option Operands → Prop} (h : b.Every P) (h' : b.Every Q) :
    b.Every fun e pair => P e pair ∧ Q e pair :=
  fun e l r hn => ⟨h e l r hn, h' e l r hn⟩

/-- Branches that differ in measures alone have entries that are related where those of every node
are. -/
theorem forall₂_entries {P Q : Entry → Option Operands → Prop} {R : Entry → Entry → Prop}
    (hb : b'.withoutMeasures = b.withoutMeasures) (h : b.Every P) (h' : b'.Every Q)
    (hR : ∀ e e' pair, e'.withoutMeasures = e.withoutMeasures → P e pair → Q e' pair → R e e') :
    List.Forall₂ R b.entries b'.entries := by
  induction b generalizing b' with
  | absent =>
    cases b' with
    | absent =>
      rw [entries_absent]
      exact .nil
    | node e' l' r' => cases hb
  | node e l r ihl ihr =>
    cases b' with
    | absent => cases hb
    | node e' l' r' =>
      have hpair := paired?_congr hb
      obtain ⟨htop, hl, hr⟩ := every_node.mp h
      obtain ⟨htop', hl', hr'⟩ := every_node.mp h'
      obtain ⟨he, hbl, hbr⟩ := node.inj hb
      rw [hpair] at htop'
      rw [entries_node, entries_node]
      exact .cons (hR e e' _ he htop htop')
        (List.rel_append (ihl hbl hl hl') (ihr hbr hr hr'))

/-- After a measurement the contractions carry costs if no node is faulty. -/
theorem Measured.carries (h : Measured size elementBytes b totals b') :
    b'.Every fun e pair =>
      e.Carries size elementBytes (if totals.faulty = [] then pair else none) := by
  intro e l r hn
  by_cases hf : totals.faulty = []
  · obtain ⟨hoperations, haccesses⟩ := h.costs hf e l r hn
    rw [if_pos hf, paired?]
    refine ⟨h.tensorSize e l r hn, hoperations.trans ?_, haccesses.trans ?_⟩
    · split <;> rfl
    · split <;> rfl
  · obtain ⟨-, -, hunset⟩ := h.uncounted hf
    rw [if_neg hf]
    have hlacks := hunset e l r hn
    exact ⟨h.tensorSize e l r hn, hlacks.operations, hlacks.byteAccesses⟩

theorem Measured.operations_le (h : Measured size elementBytes b totals b')
    {after : Branch} (h' : Measured size' elementBytes b totals' after)
    (hgrows : b.AllLabels fun label => Grows (size label) (size' label)) :
    totals.operations ≤ totals'.operations := by
  have hfaulty : totals'.faulty = totals.faulty := h'.faulty.trans h.faulty.symm
  by_cases hf : totals.faulty = []
  · rw [h.operations hf, h'.operations (hfaulty.trans hf)]
    refine List.sum_le_sum fun n hn => ?_
    obtain ⟨hn, hbinary⟩ := List.mem_filter.mp hn
    cases n with
    | absent => cases hbinary
    | node e l r =>
      have hlabels := (hgrows.every e l r hn).2 _ (paired?_of_isContraction hbinary)
      exact (Operands.grows_operationCount hlabels).2
  · rw [(h.uncounted hf).1, (h'.uncounted (hfaulty ▸ hf)).1]

end Branch

/-- The size of a label is a positive integer in one table and no smaller in another. -/
def Sizing.GrowsAt (sizing sizing' : Sizing) (label : Label) : Prop :=
  ∃ m n, sizing label = .ok m ∧ sizing' label = .ok n ∧ Grows m n

theorem Sizing.GrowsAt.values {sizing sizing' : Sizing} {label : Label}
    (h : sizing.GrowsAt sizing' label) : Grows (sizing.value label) (sizing'.value label) := by
  obtain ⟨m, n, hm, hn, hgrows⟩ := h
  rw [Sizing.value, Sizing.value, hm, hn]
  exact hgrows

/-- Of two measurements of a branch that come to their end, under the same settings and by tables in
which every label of the branch, with the default for those that are not there, has a positive size
and one that is no smaller, both find the same nodes faulty. The second sets no cost that is smaller
than in the first, at no node and in total, and all costs are positive. -/
theorem Branch.measure_le_measure (sizes sizes' : Table Datum) (settings : Settings)
    (config : Config) (b : Branch) (totals totals' : Totals) (hc : settings.check = .ok config)
    (hgrows : b.AllLabels
      ((Sizing.ofTable sizes (.int config.defaultSize)).GrowsAt
        (.ofTable sizes' (.int config.defaultSize))))
    (h : (b.measure sizes settings).outcome = .ok totals)
    (h' : (b.measure sizes' settings).outcome = .ok totals') :
    totals'.faulty = totals.faulty ∧ totals.operations ≤ totals'.operations ∧
      List.Forall₂ Entry.CostsNoMore (b.measure sizes settings).branch.entries
        (b.measure sizes' settings).branch.entries := by
  have hm := measured_of_measure hc h
  have hm' := measured_of_measure hc h'
  have hvalues : b.AllLabels fun label =>
      Grows ((Sizing.ofTable sizes (.int config.defaultSize)).value label)
        ((Sizing.ofTable sizes' (.int config.defaultSize)).value label) :=
    fun e he label hlabel => (hgrows e he label hlabel).values
  have hfaulty : totals'.faulty = totals.faulty := hm'.faulty.trans hm.faulty.symm
  refine ⟨hfaulty, hm.operations_le hm' hvalues, ?_⟩
  have hlabels := (hvalues.of_tensorsFrom (tensorsFrom_of_withoutMeasures_eq hm.sameTree)).every
  have hcarries := hm'.carries
  rw [hfaulty] at hcarries
  refine forall₂_entries (hm'.sameTree.trans hm.sameTree.symm)
    (hm.carries.and hlabels) hcarries ?_
  rintro e e' pair hnode ⟨hcarries, htop, hpaired⟩ hcarries'
  refine hcarries.costsNoMore hcarries' hnode (Settings.check_pos hc).1 htop fun o ho => ?_
  exact hpaired o (Option.ite_none_right_eq_some.mp ho).2

/-- With a longer sum and one label out of the default, a product of two tensors costs more, though
its own tensor stays small. -/
theorem Branch.measure_le_measure_product :
    let sizes : Table Datum := ⟨[("m", .int 3), ("k", .int 5)]⟩
    let sizes' : Table Datum := ⟨[("k", .int 8), ("m", .int 3), ("n", .int 4)]⟩
    let b : Branch := node { id := "c", labels := [some "m", some "n"] }
      (node { id := "a", labels := [some "m", some "k"] } absent absent)
      (node { id := "b", labels := [some "k", some "n", some "k"] } absent absent)
    ∃ totals totals', (b.measure sizes {}).outcome = .ok totals ∧
      (b.measure sizes' {}).outcome = .ok totals' ∧
      b.AllLabels ((Sizing.ofTable sizes (.int defaultIndexSize)).GrowsAt
        (.ofTable sizes' (.int defaultIndexSize))) ∧
      totals.operations = 54 ∧ totals'.operations = 180 ∧ totals'.faulty = totals.faulty ∧
      totals.operations ≤ totals'.operations ∧
      List.Forall₂ Entry.CostsNoMore (b.measure sizes {}).branch.entries
        (b.measure sizes' {}).branch.entries := by
  intro sizes sizes' b
  have hc : ({} : Settings).check = .ok ({} : Config) := by cbv
  let grows := (Sizing.ofTable sizes (.int defaultIndexSize)).GrowsAt
    (.ofTable sizes' (.int defaultIndexSize))
  have hm : grows (some "m") := ⟨3, 3, by cbv, by cbv, by decide, by decide⟩
  have hk : grows (some "k") := ⟨5, 8, by cbv, by cbv, by decide, by decide⟩
  have hn : grows (some "n") := ⟨2, 4, by cbv, by cbv, by decide, by decide⟩
  have hgrows : b.AllLabels grows := by
    simp [b, allLabels_node, allLabels_absent, hm, hk, hn]
  obtain ⟨totals, hfirst, hcount⟩ := exists_ok_of_any
    (show (b.measure sizes {}).outcome.toOption.any (·.operations == 54) = true by decide +kernel)
  obtain ⟨totals', hsecond, hcount'⟩ := exists_ok_of_any
    (show (b.measure sizes' {}).outcome.toOption.any (·.operations == 180) = true by decide +kernel)
  obtain ⟨hfaulty, hle, hentries⟩ :=
    measure_le_measure sizes sizes' {} {} b totals totals' hc hgrows hfirst hsecond
  exact ⟨totals, totals', hfirst, hsecond, hgrows, eq_of_beq hcount, eq_of_beq hcount', hfaulty,
    hle, hentries⟩

end Contraction
