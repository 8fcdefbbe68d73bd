import Contraction.Proofs.Measurement.Regrouping
import Contraction.Proofs.Measurement.Sizing
import Contraction.Proofs.Plan.Numbering

/-!
# What edits do to measures

A plan that can be measured can be measured after its operands have been exchanged somewhere, and
after a permutation has been put over a node. An exchange leaves every node the measures that it
had, and a permutation all other nodes; what the node under it came to is handed on to the new node.
Two measures are left out of this: the share among all bytes, since these are rounded sums, and the
total, which stands at the top alone and is part of the answer.

* `measuresOf?` — the measures at a node by its id
* `measure_swapAt`, `measure_wrapAt` — the measures after an edit
-/

namespace Contraction

namespace Branch

variable {size : Label → Int} {elementBytes : Int} {b b' : Branch} {id : String} {m : Measures}
  {f : Figure} {sizes : Table Datum} {settings : Settings} {totals : Totals}

/-! ## Measures by ids -/

/-- The measures of the node with an id, without the share of the sum of all bytes and the total. -/
def measuresOf? (b : Branch) (id : String) : Option Measures :=
  (b.find? id).bind fun n => n.entry?.map fun e => e.measures.withoutTotals

/-- Where ids differ and the measures follow from the figures, those of an id are the ones of its
figure. -/
theorem measuresOf?_of_every {g : Figure → Measures} (hids : b.ids.Nodup)
    (hb : b.Every fun e pair => e.measures.withoutTotals = g (e.figure size elementBytes pair)) :
    b.measuresOf? id = some m ↔ ∃ f ∈ b.figures size elementBytes, f.id = id ∧ g f = m := by
  constructor
  · intro h
    obtain ⟨n, hfind, hentry⟩ := Option.bind_eq_some_iff.mp h
    obtain ⟨e, l, r, rfl, hid⟩ := exists_entry_of_find? hfind
    obtain rfl : e.measures.withoutTotals = m := Option.some.inj hentry
    have hn := (postorder_perm_preorder b).mem_iff.mpr (mem_of_find? hfind)
    exact ⟨_, mem_figures.mpr ⟨e, l, r, hn, rfl⟩, hid, (hb e l r hn).symm⟩
  · rintro ⟨f, hf, rfl, rfl⟩
    obtain ⟨e, l, r, hn, rfl⟩ := mem_figures.mp hf
    have hfind : b.find? e.id = some (node e l r) :=
      find?_of_mem hids ((postorder_perm_preorder b).mem_iff.mp hn)
    rw [← hb e l r hn]
    exact Option.bind_eq_some_iff.mpr ⟨_, hfind, rfl⟩

theorem every_settled (b : Branch) : (b.settled size elementBytes).Every fun e pair =>
    e.measures.withoutTotals = ((Scale.ofFigures elementBytes
      (b.figures size elementBytes)).measures (e.figure size elementBytes pair)).withoutTotals := by
  have hset : (b.withMeasures size elementBytes
      (Scale.ofFigures elementBytes (b.figures size elementBytes)).measures).Every fun e pair =>
      e.measures.withoutTotals = ((Scale.ofFigures elementBytes
        (b.figures size elementBytes)).measures (e.figure size elementBytes pair)).withoutTotals :=
    fun e l r hn => congrArg Measures.withoutTotals (every_withMeasures b e l r hn)
  rw [settled]
  split
  · exact hset.mapTop (fun _ => rfl) fun e pair he => he
  · exact hset

/-- The measures by ids after a measurement. -/
theorem measuresOf?_settled (h : b.ids.Nodup) :
    (b.settled size elementBytes).measuresOf? id = some m ↔
      ∃ f ∈ b.figures size elementBytes, f.id = id ∧ ((Scale.ofFigures elementBytes
        (b.figures size elementBytes)).measures f).withoutTotals = m := by
  have hkept : (b.settled size elementBytes).withoutMeasures = b.withoutMeasures :=
    withoutMeasures_settled b
  have hids : (b.settled size elementBytes).ids.Nodup := by
    rw [ids_eq_bareEntries, bareEntries_congr hkept, ← ids_eq_bareEntries]
    exact h
  rw [measuresOf?_of_every (g := fun f => ((Scale.ofFigures elementBytes
    (b.figures size elementBytes)).measures f).withoutTotals) hids (every_settled b),
    figures_congr hkept]

/-! ## Exchanging operands -/

/-- A branch that can be measured can be measured after an exchange of operands, and all nodes have
the measures that they had. -/
theorem measure_swapAt (hids : b.ids.Nodup) (hids' : b'.ids.Nodup) (hb : b.swapAt id = some b')
    (h : (b.measure sizes settings).outcome = .ok totals) :
    ∃ totals', (b'.measure sizes settings).outcome = .ok totals' ∧
      totals'.operations = totals.operations ∧ totals'.faulty.Perm totals.faulty ∧
      ∀ other, (b'.measure sizes settings).branch.measuresOf? other =
        (b.measure sizes settings).branch.measuresOf? other := by
  obtain ⟨size, elementBytes, hrange, hmeasure⟩ := exists_figures_of_measured h
  have hperm : (b'.figures size elementBytes).Perm (b.figures size elementBytes) :=
    swapAt_figures size elementBytes hb
  have hsame := Regrouped.of_perm hperm
  obtain ⟨houtcome, hbranch⟩ := hmeasure b (fun _ hlabels => hlabels) hrange
  obtain ⟨houtcome', hbranch'⟩ := hmeasure b'
    (fun _ hlabels => hlabels.of_tensorsFrom (swapAt_tensorsFrom hb)) (hsame.inRange hrange)
  obtain rfl := Except.ok.inj (houtcome.symm.trans h)
  refine ⟨_, houtcome', hsame.settled_operations, ?_, fun other => Option.ext fun m => ?_⟩
  · rw [Totals.settled_faulty, Totals.settled_faulty]
    exact (hperm.filter _).map _
  · rw [hbranch, hbranch', measuresOf?_settled hids, measuresOf?_settled hids']
    refine exists_congr fun f => and_congr hperm.mem_iff (and_congr_right fun _ => ?_)
    rw [hsame.measures hrange rfl rfl]

/-! ## Putting a permutation over a node -/

/-- A branch that can be measured can be measured after a permutation has been put over a node. The
new node has the measures that this one had, and all others keep theirs. -/
theorem measure_wrapAt {newId : String} (hids : b.ids.Nodup) (hids' : b'.ids.Nodup)
    (hb : b.wrapAt id newId = some b') (h : (b.measure sizes settings).outcome = .ok totals) :
    ∃ totals', (b'.measure sizes settings).outcome = .ok totals' ∧
      totals'.operations = totals.operations ∧
      totals'.contractions.length = totals.contractions.length ∧
      totals'.faulty.length = totals.faulty.length ∧
      (∀ other, other ≠ id → other ≠ newId →
        (b'.measure sizes settings).branch.measuresOf? other =
          (b.measure sizes settings).branch.measuresOf? other) ∧
      (b'.measure sizes settings).branch.measuresOf? newId =
        (b.measure sizes settings).branch.measuresOf? id := by
  obtain ⟨size, elementBytes, hrange, hmeasure⟩ := exists_figures_of_measured h
  obtain ⟨before, after, f, hid, hfigures, hfigures'⟩ :=
    wrapAt_figures size elementBytes hb
  have hsame : Regrouped (b.figures size elementBytes) (b'.figures size elementBytes) := by
    rw [hfigures, hfigures']
    exact .of_handedOn before after f newId
  obtain ⟨houtcome, hbranch⟩ := hmeasure b (fun _ hlabels => hlabels) hrange
  obtain ⟨houtcome', hbranch'⟩ := hmeasure b'
    (fun _ hlabels => hlabels.of_tensorsFrom (wrapAt_tensorsFrom hb)) (hsame.inRange hrange)
  obtain rfl := Except.ok.inj (houtcome.symm.trans h)
  refine ⟨_, houtcome', hsame.settled_operations, hsame.settled_contractions,
    hsame.settled_faulty, ?_, ?_⟩
  · intro other hother hnew
    -- the figures of all other nodes are those that there were
    have hmem : ∀ g : Figure, g.id = other →
        (g ∈ b'.figures size elementBytes ↔ g ∈ b.figures size elementBytes) := by
      rintro g rfl
      have hf : g ≠ f := fun heq => hother (heq ▸ hid)
      have hinner : g ≠ { f with id := newId } := fun heq => hnew (heq ▸ rfl)
      have houter : g ≠ { f with finding := none } := fun heq => hother (heq ▸ hid)
      rw [hfigures, hfigures']
      simp [hf, hinner, houter]
    refine Option.ext fun m => ?_
    rw [hbranch, hbranch', measuresOf?_settled hids, measuresOf?_settled hids']
    refine exists_congr fun g => ?_
    rw [hsame.measures hrange rfl rfl]
    exact ⟨fun ⟨hg, hgid, hm⟩ => ⟨(hmem g hgid).mp hg, hgid, hm⟩,
      fun ⟨hg, hgid, hm⟩ => ⟨(hmem g hgid).mpr hg, hgid, hm⟩⟩
  · have hold : f ∈ b.figures size elementBytes := by simp [hfigures]
    have hnew : { f with id := newId } ∈ b'.figures size elementBytes := by simp [hfigures']
    rw [hbranch, hbranch', (measuresOf?_settled hids).mpr ⟨f, hold, hid, rfl⟩,
      (measuresOf?_settled hids').mpr ⟨_, hnew, rfl, rfl⟩]
    exact congrArg some (hsame.measures hrange rfl rfl)

end Branch

namespace Plan

variable {p : Plan} {id : String} {x : Branch} {sizes : Table Datum} {settings : Settings}
  {totals : Totals}

/-- A plan that can be measured can be measured after an edit at a node that is there. Where the
operands of a contraction are exchanged, the operations and the faulty nodes are the same and so are
the measures of every node. Where a permutation is put over a node, the operations and the numbers
of contractions and of faulty nodes are the same, every other node keeps its measures, and the new
node has those that the node had. It can be put there unless the next id cannot be written. -/
theorem IsNumbered.measure_edits (hp : p.IsNumbered)
    (h : (p.root.measure sizes settings).outcome = .ok totals) (hx : p.root.find? id = some x) :
    (x.isContraction → ∃ p' totals', p.swapAt id = some p' ∧
      (p'.root.measure sizes settings).outcome = .ok totals' ∧
      totals'.operations = totals.operations ∧ totals'.faulty.Perm totals.faulty ∧
      ∀ other, (p'.root.measure sizes settings).branch.measuresOf? other =
        (p.root.measure sizes settings).branch.measuresOf? other) ∧
    (p.ids.issue.2.areWritable → ∃ p' totals', p.wrapAt id = .ok (some p') ∧
      (p'.root.measure sizes settings).outcome = .ok totals' ∧
      totals'.operations = totals.operations ∧
      totals'.contractions.length = totals.contractions.length ∧
      totals'.faulty.length = totals.faulty.length ∧
      (∀ other, other ≠ id → other ≠ p.ids.issue.1 →
        (p'.root.measure sizes settings).branch.measuresOf? other =
          (p.root.measure sizes settings).branch.measuresOf? other) ∧
      (p'.root.measure sizes settings).branch.measuresOf? p.ids.issue.1 =
        (p.root.measure sizes settings).branch.measuresOf? id) ∧
    (¬p.ids.issue.2.areWritable → p.wrapAt id = .error (.conversion .unwritable)) := by
  obtain ⟨wrapped, hwrapped⟩ : ∃ root, p.root.wrapAt id p.ids.issue.1 = some root :=
    Branch.exists_updateFirst? hx
  refine ⟨fun hbinary => ?_, fun hwritable => ?_, fun hno => wrapAt_of_not_writable hwrapped hno⟩
  · obtain ⟨root, hroot⟩ := Branch.exists_swapAt hx hbinary
    have hswap : p.swapAt id = some { p with root } := Option.map_eq_some_iff.mpr ⟨root, hroot, rfl⟩
    obtain ⟨totals', hmeasured⟩ :=
      Branch.measure_swapAt hp.proper.distinct (hp.swapAt hswap).proper.distinct hroot h
    exact ⟨_, totals', hswap, hmeasured⟩
  · have hwrap := wrapAt_of_writable hwrapped hwritable
    obtain ⟨totals', hmeasured⟩ :=
      Branch.measure_wrapAt hp.proper.distinct (hp.wrapAt hwrap).proper.distinct hwrapped h
    exact ⟨_, totals', hwrap, hmeasured⟩

/-- The operands of a product are exchanged, and a permutation is put over it. -/
theorem measure_edits_product : ∃ p swapped wrapped : Plan,
    ofText (some "[i,k],[k,j]->[i,j]") = .ok p ∧ p.swapAt "node_2" = some swapped ∧
      p.wrapAt "node_2" = .ok (some wrapped) ∧
      (∃ totals, (swapped.root.measure .empty {}).outcome = .ok totals ∧ totals.operations = 12) ∧
      (wrapped.root.measure .empty {}).branch.measuresOf? "node_3" =
        (p.root.measure .empty {}).branch.measuresOf? "node_2" := by
  obtain ⟨p, hp, hchecks⟩ := exists_ok_of_any (x := ofText (some "[i,k],[k,j]->[i,j]"))
    (p := fun p => (p.root.measure .empty {}).outcome.toOption.any (fun t => t.operations == 12) &&
      (p.root.find? "node_2").any Branch.isContraction && p.ids.issue.2.areWritable &&
      p.ids.issue.1 == "node_3") (by decide +kernel)
  simp only [Bool.and_eq_true, beq_iff_eq] at hchecks
  obtain ⟨⟨⟨hmeasure, hfind⟩, hwritable⟩, hnew⟩ := hchecks
  obtain ⟨totals, hmeasure, htotal⟩ := exists_ok_of_any hmeasure
  obtain ⟨x, hx, hbinary⟩ := (Option.any_eq_true _ _).mp hfind
  obtain ⟨hswapped, hwrapped, -⟩ := (isNumbered_ofText hp).measure_edits hmeasure hx
  obtain ⟨swapped, totals', hswap, houtcome, hoperations, -⟩ := hswapped hbinary
  obtain ⟨wrapped, -, hwrap, -, -, -, -, -, hmeasures⟩ := hwrapped hwritable
  rw [hnew] at hmeasures
  exact ⟨p, swapped, wrapped, hp, hswap, hwrap,
    ⟨totals', houtcome, hoperations.trans (eq_of_beq htotal)⟩, hmeasures⟩

end Plan

end Contraction
