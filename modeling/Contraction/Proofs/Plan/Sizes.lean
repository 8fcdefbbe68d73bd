import Contraction.Proofs.Branch.Labels
import Contraction.Proofs.Plan.Steps
import Contraction.Proofs.Table

/-!
# The sizes of a plan

A plan is sized when every node lists the sizes that the table has for its labels, in their order,
and all of them are positive. Entering sizes makes a plan sized if every label is then in the
table, and the edits keep it so: a node that comes to a plan lists what another one does.

* `setSizes_isSized`, `setCompleteSizes_isSized` — entering sizes
* `IsSized.swapAt`, `IsSized.wrapAt`, `IsSized.removeAt` — editing
-/

namespace Contraction

namespace Plan

variable {p p' renamed : Plan} {id : String} {given : Table Datum} {default : Datum}
  {input : PatchInput} {text : Option String} {e e' : Entry} {label : Label}

/-- The table has a positive size for a label. -/
def Knows (p : Plan) (label : Label) : Prop :=
  ∃ size, 0 < size ∧ p.sizeOf? label = some size

/-- A node lists the sizes that the table has for its labels, in their order. -/
def Lists (p : Plan) (e : Entry) : Prop :=
  ∃ sizes : List Int, e.sizes = some (sizes.map .int) ∧ e.labels.map p.sizeOf? = sizes.map some

/-- The table has a positive size for every label, and every node lists the sizes of its labels. -/
structure IsSized (p : Plan) : Prop where
  knows : p.root.AllLabels p.Knows
  lists : ∀ e ∈ p.root.bareEntries, p.Lists e

theorem isSized_empty : IsSized empty where
  knows := Branch.allLabels_absent
  lists := by simp [empty]

/-! ## Entering sizes -/

theorem sizeFrom_pos {name : String} {size : Datum} {n : Int} (h : sizeFrom name size = .ok n) :
    0 < n := by
  rw [sizeFrom] at h
  split at h
  · cases h
  · cases h
  · split at h
    · cases h
    · next hpos =>
      obtain rfl := Except.ok.inj h
      simp only [Bool.or_eq_true, decide_eq_true_eq, not_or] at hpos
      omega

/-- A node that gets the sizes of its labels lists them, if the table has all of them. -/
theorem lists_spreadEntry (h : ∀ label ∈ e.labels, p.Knows label) : p.Lists (p.spreadEntry e) := by
  refine ⟨p.sizesOf e.labels, rfl, ?_⟩
  show e.labels.map p.sizeOf? = (e.labels.map _).map some
  rw [List.map_map]
  refine List.map_congr_left fun label hlabel => ?_
  obtain ⟨size, -, hsize⟩ := h label hlabel
  rw [Function.comp_apply, hsize, Option.getD_some]

theorem isSized_spreadSizes (h : p.root.AllLabels p.Knows) : p.spreadSizes.IsSized := by
  have hentries : p.spreadSizes.root.bareEntries = p.root.bareEntries.map p.spreadEntry :=
    Branch.bareEntries_mapEntries (f := p.spreadEntry) (fun _ => rfl) _
  constructor
  · intro e he label hlabel
    rw [hentries] at he
    obtain ⟨x, hx, rfl⟩ := List.mem_map.mp he
    exact h x hx label hlabel
  · intro e he
    rw [hentries] at he
    obtain ⟨x, hx, rfl⟩ := List.mem_map.mp he
    exact lists_spreadEntry (h x hx)

/-- Entering sizes makes a plan sized if every label was in the table or has a size given. -/
theorem setSizes_isSized (hstep : p.setSizes given = .ok p')
    (h : p.root.AllLabels fun label =>
      p.Knows label ∨ ∃ name size, label = some name ∧ (name, size) ∈ given.entries) :
    p'.IsSized := by
  obtain ⟨checked, hchecked, rfl⟩ := setSizes_eq_ok hstep
  obtain ⟨hto, hfrom⟩ := mem_of_mapM_eq_ok hchecked
  have hpos : ∀ name n, (name, n) ∈ checked → 0 < n := by
    intro name n hmem
    obtain ⟨⟨given, size⟩, -, hsize⟩ := hfrom _ hmem
    obtain ⟨m, hm, heq⟩ := except_bind_eq_ok.mp hsize
    obtain ⟨rfl, rfl⟩ := Prod.mk.inj (Except.ok.inj heq)
    exact sizeFrom_pos hm
  refine isSized_spreadSizes fun e he label hlabel => ?_
  have hcase := h e he label hlabel
  cases label with
  | none =>
    rcases hcase with ⟨size, -, hsize⟩ | ⟨name, size, hname, -⟩
    · cases hsize
    · cases hname
  | some name =>
    rcases Table.get?_insertAll p.sizes checked name with ⟨n, hmem, hget⟩ | ⟨hnone, hget⟩
    · exact ⟨n, hpos name n hmem, hget⟩
    · rcases hcase with ⟨size, hsize, hold⟩ | ⟨other, size, hname, hgiven⟩
      · exact ⟨size, hsize, hget.trans hold⟩
      · -- a size that is given has been checked and entered
        obtain rfl := Option.some.inj hname
        obtain ⟨⟨other, n⟩, hmem, hsize⟩ := hto _ hgiven
        obtain ⟨m, hm, heq⟩ := except_bind_eq_ok.mp hsize
        obtain ⟨rfl, rfl⟩ := Prod.mk.inj (Except.ok.inj heq)
        exact absurd hmem (hnone _)

theorem mem_labels (he : e ∈ p.root.bareEntries) (hlabel : label ∈ e.labels) :
    label ∈ p.labels := by
  obtain ⟨x, l, r, hnode, rfl⟩ := Branch.exists_of_mem_bareEntries he
  rw [labels, List.mem_eraseDups]
  exact List.mem_flatMap.mpr ⟨_, hnode, hlabel⟩

/-- Entering a size for every label makes a plan sized. -/
theorem setCompleteSizes_isSized (hstep : p.setCompleteSizes given default = .ok p')
    (h : p.root.IsNamed) : p'.IsSized := by
  obtain ⟨sizes, hsizes, hstep⟩ := except_bind_eq_ok.mp hstep
  obtain ⟨hto, -⟩ := mem_of_mapM_eq_ok (except_mapError_eq_ok.mp hsizes)
  refine setSizes_isSized hstep fun e he label hlabel => Or.inr ?_
  obtain ⟨name, rfl⟩ := h e he label hlabel
  obtain ⟨⟨other, size⟩, hmem, heq⟩ := hto _ (mem_labels he hlabel)
  obtain ⟨n, -, hpair⟩ := except_map_eq_ok.mp heq
  obtain ⟨rfl, rfl⟩ := Prod.mk.inj hpair
  have hentry : (name, Datum.int n) ∈
      sizes.map fun entry => (entry.1.plainText, Datum.int entry.2) :=
    List.mem_map.mpr ⟨_, hmem, rfl⟩
  obtain ⟨given, hgiven⟩ := Table.exists_mem_ofPairs hentry
  exact ⟨name, given, rfl, hgiven⟩

/-! ## Editing -/

namespace IsSized

/-- A plan stays sized if every node has the labels and the sizes of a node that was there. -/
theorem of_tensorsFrom (h : p.IsSized) (hsizes : p'.sizes = p.sizes)
    (hroot : p'.root.TensorsFrom p.root) : p'.IsSized := by
  have hsize : p'.sizeOf? = p.sizeOf? := by
    funext label
    rw [sizeOf?, sizeOf?, hsizes]
  constructor
  · have hknows : p'.Knows = p.Knows := by
      funext label
      rw [Knows, Knows, hsize]
    rw [hknows]
    exact h.knows.of_tensorsFrom hroot
  · intro e' he'
    obtain ⟨e, he, hlabels, hlisted⟩ := hroot e' he'
    rw [Lists, hsize, hlabels, hlisted]
    exact h.lists e he

/-- The measures at the nodes have no part in it. -/
theorem of_withoutMeasures_eq (h : p.IsSized) (hsizes : p'.sizes = p.sizes)
    (hroot : p'.root.withoutMeasures = p.root.withoutMeasures) : p'.IsSized :=
  h.of_tensorsFrom hsizes (Branch.tensorsFrom_of_withoutMeasures_eq hroot)

theorem withoutMeasures (h : p.IsSized) : p.withoutMeasures.IsSized :=
  h.of_withoutMeasures_eq rfl p.root.withoutMeasures_withoutMeasures

theorem swapAt (h : p.IsSized) (hstep : p.swapAt id = some p') : p'.IsSized := by
  obtain ⟨root, hroot, rfl⟩ := swapAt_eq_some hstep
  exact h.of_tensorsFrom rfl (Branch.swapAt_tensorsFrom hroot)

theorem removeAt (h : p.IsSized) (hstep : p.removeAt id = some p') : p'.IsSized := by
  obtain ⟨root, hroot, rfl⟩ := removeAt_eq_some hstep
  exact h.of_tensorsFrom rfl (Branch.removeAt_tensorsFrom hroot)

theorem wrapAt (h : p.IsSized) (hstep : p.wrapAt id = .ok (some p')) : p'.IsSized := by
  obtain ⟨root, hroot, rfl⟩ := wrapAt_eq_ok hstep
  exact h.of_tensorsFrom rfl (Branch.wrapAt_tensorsFrom hroot)

theorem isNamed (h : p.IsSized) : p.root.IsNamed := by
  intro e he label hlabel
  obtain ⟨size, -, hsize⟩ := h.knows e he label hlabel
  obtain ⟨name, hname, -⟩ := Option.bind_eq_some_iff.mp hsize
  exact ⟨name, hname⟩

end IsSized

theorem isNamed_ofText (h : ofText text = .ok p) : p.root.IsNamed := by
  obtain ⟨x, rfl⟩ := ofText_eq_ok h
  exact (Branch.shows_ofExpression ⟨0⟩ x).isNamed

/-- Renaming leaves no label without a name. -/
theorem isNamed_rename (h : p.root.IsNamed) (hstep : (p.rename input).outcome = .ok (some p')) :
    p'.root.IsNamed := by
  obtain ⟨news, root, hroot, rfl⟩ := rename_eq_ok hstep
  have hrenamed : root.IsNamed :=
    Branch.renameAll_induction (P := Branch.IsNamed) (fun hb hstep => hb.renameAt hstep) h hroot
  intro e he label hlabel
  rw [spreadSizes_root, Branch.bareEntries_mapEntries (g := spreadEntry _) fun _ => rfl,
    Branch.bareEntries_withoutMeasures] at he
  obtain ⟨x, hx, rfl⟩ := List.mem_map.mp he
  exact hrenamed x hx label hlabel

end Plan

end Contraction
