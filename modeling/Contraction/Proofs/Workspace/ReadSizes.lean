import Contraction.Proofs.Plan.Overrides
import Contraction.Proofs.Workspace.GivenSizes

/-!
# The table of sizes after a text has been read

A text that is read gets a table of its own, with an entry for each of its labels, in the order in
which they first come in pre-order. The sizes for it come from three places, of which the first that
has one counts: what is given with the text, the table that was there before, and the configuration
(`sizeOnReading`). Nothing else is taken over from either table (`readText_sizes`), so that after
the next text a size is known for the labels of this one alone.
-/

namespace Contraction

/-! ## Labels in pre-order -/

theorem Branch.flatMap_labels (b : Branch) :
    b.preorder.flatMap Branch.labels = b.bareEntries.flatMap Entry.labels := by
  induction b with
  | absent => rw [preorder_absent, bareEntries_absent, List.flatMap_nil, List.flatMap_nil]
  | node e l r ihl ihr =>
    rw [preorder_node, bareEntries_node, List.flatMap_cons, List.flatMap_cons, List.flatMap_append,
      List.flatMap_append, ihl, ihr]
    rfl

namespace Plan

variable {p p' : Plan} {given : Table Datum} {default : Datum}

theorem labels_congr (h : p'.root.withoutMeasures = p.root.withoutMeasures) :
    p'.labels = p.labels := by
  rw [labels, labels, Branch.flatMap_labels, Branch.flatMap_labels, Branch.bareEntries_congr h]

theorem labels_withSizes (p : Plan) (checked : List (String × Int)) :
    (p.withSizes checked).labels = p.labels := by
  rw [labels, labels, Branch.flatMap_labels, Branch.flatMap_labels, withSizes, spreadSizes_root,
    Branch.bareEntries_mapEntries (g := spreadEntry _) fun _ => rfl, List.flatMap_map]
  rfl

/-- Where all labels have names, these are a list without repetition. -/
theorem exists_names (h : p.root.IsNamed) :
    ∃ names : List String, p.labels = names.map some ∧ names.Nodup := by
  have hall : p.labels = (p.labels.filterMap id).map some := by
    have hsome : ∀ label ∈ p.labels, label.map some = some label := by
      intro label hlabel
      obtain ⟨name, rfl⟩ := exists_name_of_mem_labels h hlabel
      rfl
    rw [List.map_filterMap]
    exact ((List.filterMap_congr hsome).trans List.filterMap_some).symm
  refine ⟨p.labels.filterMap id, hall, List.Nodup.of_map some ?_⟩
  rw [← hall, labels]
  exact nodup_eraseDups _

/-! ## Giving every label a size -/

/-- The sizes that are entered are those of the labels in their order. -/
theorem setCompleteSizes_eq_withSizes {names : List String}
    (hstep : p.setCompleteSizes given default = .ok p') (hnames : p.labels = names.map some)
    (hnodup : names.Nodup) :
    p' = p.withSizes (names.map fun name =>
      (name, (p.sizeFor given default (some name)).toOption.getD 0)) := by
  let size := fun name => (p.sizeFor given default (some name)).toOption.getD 0
  obtain ⟨sizes, hsizes, hset⟩ := except_bind_eq_ok.mp hstep
  have hpairs : sizes = names.map fun name => (some name, size name) := by
    have heach := mapM_eq_ok.mp (except_mapError_eq_ok.mp hsizes)
    refine List.map_injective_iff.mpr (fun _ _ => Except.ok.inj) (heach.symm.trans ?_)
    rw [hnames, List.map_map, List.map_map]
    refine List.map_congr_left fun name hname => ?_
    have hlabel : some name ∈ p.labels := hnames ▸ List.mem_map_of_mem hname
    obtain ⟨n, -, hn⟩ := (completeSizes_eq_ok hsizes).1 _ hlabel
    show (p.sizeFor given default (some name)).map _ = .ok (some name, size name)
    simp only [size, hn]
    rfl
  have hkeys : ((names.map fun name => (name, Datum.int (size name))).map Prod.fst).Nodup := by
    rw [Table.keys_of_names]
    exact hnodup
  rw [hpairs, List.map_map] at hset
  have htable : p.setSizes (Table.ofPairs (names.map fun name => (name, .int (size name)))) =
      .ok p' := hset
  rw [Table.ofPairs_of_nodup hkeys] at htable
  have hentered := setSizes_of_areSizes (p := p) (areSizes_of_setSizes htable)
  rw [htable, Table.map, List.map_map] at hentered
  exact Except.ok.inj hentered

end Plan

namespace Workspace

variable {w : Workspace} {text : Option String} {given : Table Datum} {plan : Plan}

/-- The size that a label gets when a text is read: the one that is given with it, else the one that
was known before, else the default. -/
def sizeOnReading (w : Workspace) (given : Table Datum) (name : String) : Int :=
  (((given.get? name).map Datum.asSize).or (w.plan.sizes.get? name)).getD w.config.defaultSize

theorem sizeFor_eq_sizeOnReading (hplan : Plan.ofText text = .ok plan)
    (hgiven : (given.entries.map Prod.fst).Nodup) (name : String) :
    (plan.sizeFor (w.plan.sizeData.override given) (.int w.config.defaultSize)
      (some name)).toOption.getD 0 = w.sizeOnReading given name := by
  obtain ⟨e, rfl⟩ := Plan.ofText_eq_ok hplan
  rw [Plan.sizeFor, Option.bind_some, Table.get?_override hgiven, Plan.sizeData, Table.get?_map,
    sizeOnReading]
  cases given.get? name with
  | some value => rfl
  | none => cases w.plan.sizes.get? name <;> rfl

/-- When a text has been read, with sizes no two of which are for one label, the table has the
labels of the new plan in the order in which they first come in pre-order, each once. Each has the
size that is given, else the one that was known before, else the default. For other labels nothing
is left, neither of the table before nor of the sizes that are given. -/
theorem readText_sizes (w : Workspace) (text : Option String) (given : Table Datum)
    (hgiven : (given.entries.map Prod.fst).Nodup)
    (hread : (w.readText text given).outcome = .ok none) :
    let after := (w.readText text given).workspace.plan
    ∃ (plan : Plan) (names : List String), Plan.ofText text = .ok plan ∧
      plan.labels = names.map some ∧
      after.labels = names.map some ∧ names.Nodup ∧
      after.sizes.entries = names.map (fun name => (name, w.sizeOnReading given name)) ∧
      ∀ name, name ∉ names → after.sizes.get? name = none := by
  intro after
  obtain ⟨plan, sized, hplan, hsized, hworkspace⟩ : ∃ plan sized, Plan.ofText text = .ok plan ∧
      w.sized plan given = .ok sized ∧
      (w.readText text given).workspace = (w.replacePlan sized).measured.workspace := by
    cases w.readText_replies text given with
    | refused h => cases h.symm.trans hread
    | blocked h => cases h.symm.trans hread
    | entered hnext hblocked hworkspace =>
      cases hnext with
      | read hplan hsized => exact ⟨_, _, hplan, hsized, hworkspace⟩
  obtain ⟨names, hnames, hnodup⟩ := Plan.exists_names (Plan.isNamed_ofText hplan)
  have hentered := Plan.setCompleteSizes_eq_withSizes hsized hnames hnodup
  simp only [sizeFor_eq_sizeOnReading hplan hgiven] at hentered
  -- measuring leaves labels and table alone
  obtain ⟨root, totals, hroot, hmeasured⟩ := (w.replacePlan sized).measured_keeps
  have hafter : after = { sized with root } := by
    show (w.readText text given).workspace.plan = _
    rw [hworkspace, hmeasured]
    rfl
  have hlabels : after.labels = plan.labels := by
    have hsame : after.labels = sized.labels := hafter ▸ Plan.labels_congr hroot
    rw [hsame, hentered, Plan.labels_withSizes]
  have hentries : after.sizes.entries =
      names.map fun name => (name, w.sizeOnReading given name) := by
    have hkeys : ((names.map fun name => (name, w.sizeOnReading given name)).map
        Prod.fst).Nodup := by
      rw [Table.keys_of_names]
      exact hnodup
    obtain ⟨e, hempty⟩ := Plan.ofText_eq_ok hplan
    rw [hafter, hentered, hempty]
    exact congrArg Table.entries (Table.insertAll_of_nodup (t := .empty) hkeys)
  refine ⟨plan, names, hplan, hnames, hlabels.trans hnames, hnodup, hentries, fun name hname => ?_⟩
  cases hfound : after.sizes.get? name with
  | none => rfl
  | some size =>
    have hmem : (name, size) ∈ after.sizes.entries := Table.mem_of_find? hfound
    rw [hentries] at hmem
    obtain ⟨other, hother, heq⟩ := List.mem_map.mp hmem
    exact absurd ((Prod.mk.inj heq).1 ▸ hother) hname

/-- A second text keeps the size of the one label that is in both, takes one that is given, and
gives the third label the default. The label that is gone and a size that is given for none leave
nothing behind. -/
theorem readText_sizes_again : ∃ (w : Workspace) (names : List String),
    let given : Table Datum := ⟨[("z", .int 9), ("m", .int 4)]⟩
    let step := w.readText (some "[j,l],[l,m]->[j,m]") given
    w.ReachedBy (fun _ => True) ∧ w.plan.sizes.entries = [("j", 5), ("i", 3)] ∧
      (given.entries.map Prod.fst).Nodup ∧ step.outcome = .ok none ∧
      step.workspace.plan.labels = names.map some ∧ names.Nodup ∧
      names.map (fun name => (name, w.sizeOnReading given name)) =
        [("j", 5), ("m", 4), ("l", 7)] ∧
      step.workspace.plan.sizes.get? "i" = none := by
  let given : Table Datum := ⟨[("z", .int 9), ("m", .int 4)]⟩
  obtain ⟨w, hw, htest⟩ := exists_reachedBy (fun _ => True) { defaultSize := .int 7 }
    (some "[i,j]->[j,i]") ⟨[("i", .int 3), ("j", .int 5)]⟩
    (fun w =>
      let step := w.readText (some "[j,l],[l,m]->[j,m]") given
      w.plan.sizes.entries == [("j", 5), ("i", 3)] &&
        step.outcome.toOption.any Option.isNone &&
        step.workspace.plan.sizes.entries == [("j", 5), ("m", 4), ("l", 7)])
    (by decide +kernel)
  simp only [Bool.and_eq_true, beq_iff_eq] at htest
  obtain ⟨⟨hbefore, houtcome⟩, hentered⟩ := htest
  obtain ⟨refusal, hok, hnone⟩ := exists_ok_of_any houtcome
  obtain rfl := Option.isNone_iff_eq_none.mp hnone
  obtain ⟨plan, names, -, -, hlabels, hnodup, hentries, hgone⟩ :=
    w.readText_sizes (some "[j,l],[l,m]->[j,m]") given (by decide) hok
  have hpairs := hentries.symm.trans hentered
  have hnames : names = ["j", "m", "l"] := by
    have hkeys := congrArg (List.map Prod.fst) hpairs
    rw [Table.keys_of_names] at hkeys
    exact hkeys
  exact ⟨w, names, hw, hbefore, by decide, hok, hlabels, hnodup, hpairs,
    hgone "i" (hnames ▸ by decide)⟩

end Workspace

end Contraction
