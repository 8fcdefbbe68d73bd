import Contraction.Proofs.Plan.SameNodes
import Contraction.Proofs.Workspace.PlanNumbers
import Contraction.Proofs.Workspace.WellFormed

/-!
# Sizes and edits in either order

It is the same whether sizes are entered before an edit or after it. The edit finds the same nodes
either way, and where it brings new labels, their sizes come behind those that are entered. So both
orders end with the same nodes and the same sizes for all labels, and what else a workspace keeps
follows from these.

* `IgnoresSizes` — what an edit does to nodes and table is the same for all sizes
* `Resized` — what entering sizes does, and edits keep up
* `Consistent.agrees` — what decides all that a workspace keeps
-/

namespace Contraction

open Plan

/-- What an edit does to the nodes, and which sizes it adds, does not depend on the sizes that are
there. -/
def IgnoresSizes (edit : Plan → Change) : Prop :=
  ∀ (p q : Plan) (x y : Option Plan), p.SameNodes q → p.root.IsNamed → q.root.IsNamed →
    (edit p).outcome = .ok x → (edit q).outcome = .ok y → p.SameOutcome q x y

namespace Workspace

variable {w v : Workspace} {action : Action} {answer : Answer} {given : Table Datum}
  {admits : Action → Prop}

/-! ## Edits -/

/-- An edit at a node, as it is tried on a plan. -/
def editAt (edit : Plan → String → Except Fault (Option Plan)) (id : Datum) (plan : Plan) :
    Change :=
  match id with
  | .text id => ⟨edit plan id, []⟩
  | _ => ⟨.ok none, []⟩

theorem ignoresSizes_editAt {edit : Plan → String → Except Fault (Option Plan)}
    (h : ∀ {p q : Plan} {id : String} {x y : Option Plan}, p.SameNodes q → edit p id = .ok x →
      edit q id = .ok y → p.SameOutcome q x y) (id : Datum) : IgnoresSizes (editAt edit id) := by
  intro p q x y hnodes _ _ hp hq
  cases id with
  | text id => exact h hnodes hp hq
  | _ =>
    rw [← Except.ok.inj hp, ← Except.ok.inj hq]
    exact .refused

theorem ignoresSizes_renamePlan (config : Config) (input : PatchInput) :
    IgnoresSizes (renamePlan config input) := by
  intro p q x y hnodes hp hq hx hy
  rcases renamePlan_cases hx with ⟨hrp, rfl⟩ | ⟨p', p'', hrp, hsp, rfl⟩ <;>
    rcases renamePlan_cases hy with ⟨hrq, rfl⟩ | ⟨q', q'', hrq, hsq, rfl⟩
  · exact .refused
  · cases hnodes.rename hrp hrq
  · cases hnodes.rename hrp hrq
  · cases hnodes.rename hrp hrq with
    | applied nodes added left right =>
      obtain ⟨hp'', hgetp⟩ := setCompleteSizes_default (isNamed_rename hp hrp) hsp
      obtain ⟨hq'', hgetq⟩ := setCompleteSizes_default (isNamed_rename hq hrq) hsq
      refine .applied ((hp''.trans nodes).trans hq''.symm)
        (fun key => (added key).or (if some key ∈ p'.labels then some config.defaultSize else none))
        (fun key => ?_) fun key => ?_
      · rw [hgetp, left, Option.or_assoc]
      · rw [hgetq, right, ← nodes.labels_eq, Option.or_assoc]

/-- Every edit is one that ignores sizes, tried on a copy of the plan. -/
theorem perform_edit (h : action.isEdit = true) (config : Config) : ∃ name nodeId edit,
    IgnoresSizes edit ∧ ∀ w : Workspace, w.config = config →
      w.perform action = (w.tryEdit name nodeId edit).map .edit := by
  cases action with
  | read | resize | configure => cases h
  | swap id =>
    refine ⟨.swap, id, editAt (fun plan id => .ok (plan.swapAt id)) id,
      ignoresSizes_editAt (fun hnodes hp hq => ?_) id, fun _ _ => rfl⟩
    rw [← Except.ok.inj hp, ← Except.ok.inj hq]
    exact hnodes.swapAt _
  | wrap id =>
    refine ⟨.wrap, id, editAt Plan.wrapAt id,
      @ignoresSizes_editAt Plan.wrapAt (fun hnodes hp hq => hnodes.wrapAt hp hq) id,
      fun _ _ => rfl⟩
  | remove id =>
    refine ⟨.remove, id, editAt (fun plan id => .ok (plan.removeAt id)) id,
      ignoresSizes_editAt (fun hnodes hp hq => ?_) id, fun _ _ => rfl⟩
    rw [← Except.ok.inj hp, ← Except.ok.inj hq]
    exact hnodes.removeAt _
  | rename input =>
    refine ⟨.rename, patchNode input, renamePlan config input,
      ignoresSizes_renamePlan config input, ?_⟩
    rintro w rfl
    rfl

/-- An edit that is answered is refused, or gives the plan that is then current. -/
theorem tryEdit_eq_ok {name : EditAction} {nodeId : Datum} {edit : Plan → Change} {edited : Edited}
    (h : (w.tryEdit name nodeId edit).outcome = .ok edited) :
    ((edit w.plan.withoutMeasures).outcome = .ok none ∧
      edited = ⟨some ⟨name, nodeId⟩, w.planNumber⟩ ∧ (w.tryEdit name nodeId edit).workspace = w) ∨
    ∃ plan, (edit w.plan.withoutMeasures).outcome = .ok (some plan) ∧
      edited = ⟨none, (w.replacePlan plan).planNumber⟩ ∧
      (w.tryEdit name nodeId edit).workspace = (w.replacePlan plan).measured.workspace := by
  unfold tryEdit at h ⊢
  dsimp only at h ⊢
  split at h
  · cases h
  · next hnone =>
    rw [hnone]
    exact Or.inl ⟨rfl, (Except.ok.inj h).symm, rfl⟩
  · next plan hplan =>
    rw [hplan]
    obtain ⟨-, hedited⟩ := eq_of_map_const h
    rw [planNumber_measured] at hedited
    exact Or.inr ⟨plan, rfl, hedited, rfl⟩

/-! ## What a workspace keeps -/

/-- The workspaces have the same configuration, nodes with all that they carry, ids to come and
totals, and the same size for every label. The plans that have been replaced may differ. -/
structure Agrees (w v : Workspace) : Prop where
  config : w.config = v.config
  root : w.plan.root = v.plan.root
  ids : w.plan.ids = v.plan.ids
  sizes : ∀ key, w.plan.sizes.get? key = v.plan.sizes.get? key
  totals : w.totals = v.totals

theorem Agrees.refl (w : Workspace) : w.Agrees w :=
  ⟨rfl, rfl, rfl, fun _ => rfl, rfl⟩

theorem sameNodes_measured (w : Workspace) : w.measured.workspace.plan.SameNodes w.plan ∧
    w.measured.workspace.plan.sizes = w.plan.sizes ∧ w.measured.workspace.config = w.config := by
  obtain ⟨root, totals, hroot, hw⟩ := w.measured_keeps
  rw [hw]
  refine ⟨⟨?_, rfl⟩, rfl, rfl⟩
  exact (root.unsized_withoutMeasures.symm.trans (congrArg Branch.unsized hroot)).trans
    w.plan.root.unsized_withoutMeasures

/-- Nodes, sizes and configuration decide all that a consistent workspace keeps. -/
theorem Consistent.agrees (hw : w.Consistent) (hv : v.Consistent) (hconfig : w.config = v.config)
    (hnodes : w.plan.SameNodes v.plan)
    (hsizes : ∀ key, w.plan.sizes.get? key = v.plan.sizes.get? key) : w.Agrees v := by
  have hsize : w.config.sizeOf w.plan.sizes = v.config.sizeOf v.plan.sizes := by
    funext label
    rw [Config.sizeOf, Config.sizeOf, hconfig, funext hsizes]
  have hmeasure : ∀ b : Branch, b.measure w.plan.sizeData (.ofConfig w.config) =
      b.measure v.plan.sizeData (.ofConfig v.config) := by
    intro b
    rw [measure_ofConfig hw.config, measure_ofConfig hv.config, Branch.measureUnder_eq,
      Branch.measureUnder_eq, Plan.sizeData, Plan.sizeData, Sizing.ofTable_int, Sizing.ofTable_int,
      hsize, hconfig]
  have hbare : w.plan.root.withoutMeasures = v.plan.root.withoutMeasures := by
    rw [hw.sized.withoutMeasures_eq, hv.sized.withoutMeasures_eq, hnodes.root,
      spreadEntry_congr hsizes]
  refine ⟨hconfig, ?_, hnodes.ids, hsizes, ?_⟩
  · rw [← hw.branch, ← hv.branch, hbare, hmeasure]
  · exact Except.ok.inj (hw.outcome.symm.trans (by rw [hbare, hmeasure, hv.outcome]))

/-- A step that is answered and refuses nothing leaves a consistent workspace, even if an earlier
step has stopped. -/
theorem WellFormed.consistent (hw : w.WellFormed) (h : (w.perform action).outcome = .ok answer)
    (haccepted : answer.accepted = true) : (w.perform action).workspace.Consistent := by
  rcases w.perform_cases action with hrefused | ⟨ready, hready, hdone⟩
  · cases haccepted.symm.trans (hrefused.answer answer h).1
  · rw [hdone.workspace]
    exact consistent_measured (hready.check_ofConfig hw.config) (hready.isSized hw.sized)
      (hdone.answer answer h).1

/-! ## Both orders -/

/-- The second workspace is the first one with sizes entered, but for the plans that have been
replaced. -/
structure Resized (checked : List (String × Int)) (w v : Workspace) : Prop where
  config : v.config = w.config
  nodes : v.plan.SameNodes w.plan
  planNumber : v.planNumber = w.planNumber
  sizes : ∀ key, v.plan.sizes.get? key =
    ((Table.ofPairs checked).get? key).or (w.plan.sizes.get? key)

/-- Whether sizes are refused, and which are entered, does not depend on the workspace. -/
theorem perform_resize (given : Table Datum) :
    (∃ refusal, ∀ w : Workspace, (w.perform (.resize given)).workspace = w ∧
      ∀ answer, (w.perform (.resize given)).outcome = .ok answer → answer = .reply refusal) ∨
    ∃ checked, ∀ w : Workspace, Resized checked w (w.perform (.resize given)).workspace ∧
      ∀ answer, (w.perform (.resize given)).outcome = .ok answer → answer = .reply none := by
  cases hchecked : checkedSizes given with
  | error fault =>
    have hset (w : Workspace) : w.plan.setSizes given = .error fault := by
      rw [setSizes_eq, hchecked]
      rfl
    cases fault with
    | setting error =>
      refine Or.inl ⟨some (.setting error), fun w => ?_⟩
      simp only [perform, setSizes, hset]
      exact ⟨rfl, fun answer h => (Except.ok.inj h).symm⟩
    | _ =>
      refine Or.inl ⟨none, fun w => ?_⟩
      simp only [perform, setSizes, hset]
      exact ⟨rfl, fun answer h => by cases h⟩
  | ok checked =>
    refine Or.inr ⟨checked, fun w => ?_⟩
    let entered : Workspace := { w with plan := w.plan.withSizes checked }
    have hset : w.plan.setSizes given = .ok entered.plan := by
      rw [setSizes_eq, hchecked]
      rfl
    obtain ⟨hnodes, hsizes, hconfig⟩ := entered.sameNodes_measured
    simp only [perform, setSizes, hset]
    refine ⟨⟨hconfig, hnodes.trans (sameNodes_withSizes w.plan checked),
      entered.planNumber_measured, fun key => ?_⟩, fun answer h => ?_⟩
    · exact (congrArg (fun t : Table Int => t.get? key) hsizes).trans
        (get?_withSizes w.plan checked key)
    · obtain ⟨refusal, hrefusal, rfl⟩ := except_map_eq_ok.mp h
      exact congrArg Answer.reply (eq_of_map_const hrefusal).2

theorem planNumber_replacePlan (w : Workspace) (plan : Plan) :
    (w.replacePlan plan).planNumber = w.planNumber + 1 :=
  List.length_append

/-- An edit is answered the same after sizes are entered, and the sizes stay entered. -/
theorem Resized.tryEdit {checked : List (String × Int)} {name : EditAction} {nodeId : Datum}
    {edit : Plan → Change} {before after : Edited} (h : Resized checked w v)
    (hedit : IgnoresSizes edit) (hw : w.WellFormed) (hv : v.WellFormed)
    (hbefore : (w.tryEdit name nodeId edit).outcome = .ok before)
    (hafter : (v.tryEdit name nodeId edit).outcome = .ok after) :
    after = before ∧ Resized checked (w.tryEdit name nodeId edit).workspace
      (v.tryEdit name nodeId edit).workspace := by
  have hnodes : v.plan.withoutMeasures.SameNodes w.plan.withoutMeasures :=
    ((sameNodes_withoutMeasures v.plan).trans h.nodes).trans (sameNodes_withoutMeasures w.plan).symm
  have hsame := fun x y => hedit _ _ x y hnodes hv.sized.withoutMeasures.isNamed
    hw.sized.withoutMeasures.isNamed
  rcases tryEdit_eq_ok hafter with ⟨hp, rfl, hv'⟩ | ⟨p, hp, rfl, hv'⟩ <;>
    rcases tryEdit_eq_ok hbefore with ⟨hq, rfl, hw'⟩ | ⟨q, hq, rfl, hw'⟩
  · rw [hv', hw']
    exact ⟨congrArg (Edited.mk _) h.planNumber, h⟩
  · cases hsame _ _ hp hq
  · cases hsame _ _ hp hq
  · cases hsame _ _ hp hq with
    | applied nodes added left right =>
      have hnumber : (v.replacePlan p).planNumber = (w.replacePlan q).planNumber := by
        rw [planNumber_replacePlan, planNumber_replacePlan, h.planNumber]
      obtain ⟨hpnodes, hpsizes, hpconfig⟩ := (v.replacePlan p).sameNodes_measured
      obtain ⟨hqnodes, hqsizes, hqconfig⟩ := (w.replacePlan q).sameNodes_measured
      rw [hv', hw']
      refine ⟨congrArg (Edited.mk _) hnumber, ?_, ?_, ?_, fun key => ?_⟩
      · exact (hpconfig.trans h.config).trans hqconfig.symm
      · exact (hpnodes.trans nodes).trans hqnodes.symm
      · rw [planNumber_measured, planNumber_measured, hnumber]
      · calc (v.replacePlan p).measured.workspace.plan.sizes.get? key
            = p.sizes.get? key := by rw [hpsizes]; rfl
          _ = (v.plan.sizes.get? key).or (added key) := left key
          _ = ((Table.ofPairs checked).get? key).or
                ((w.plan.sizes.get? key).or (added key)) := by rw [h.sizes, Option.or_assoc]
          _ = ((Table.ofPairs checked).get? key).or (q.sizes.get? key) := by rw [right]; rfl
          _ = _ := by rw [hqsizes]; rfl

theorem Resized.perform {checked : List (String × Int)} {before after : Answer}
    (h : Resized checked w v) (hedit : action.isEdit = true) (hw : w.WellFormed)
    (hv : v.WellFormed) (hbefore : (w.perform action).outcome = .ok before)
    (hafter : (v.perform action).outcome = .ok after) :
    after = before ∧ Resized checked (w.perform action).workspace (v.perform action).workspace := by
  obtain ⟨name, nodeId, edit, hignores, hperform⟩ := perform_edit hedit w.config
  rw [hperform w rfl] at hbefore ⊢
  rw [hperform v h.config] at hafter ⊢
  obtain ⟨before, hw', rfl⟩ := except_map_eq_ok.mp hbefore
  obtain ⟨after, hv', rfl⟩ := except_map_eq_ok.mp hafter
  obtain ⟨hanswer, hresized⟩ := h.tryEdit hignores hw hv hw' hv'
  exact ⟨congrArg Answer.edit hanswer, hresized⟩

/-- Workspaces that come of the same one with the same sizes entered. -/
theorem Resized.agrees {checked : List (String × Int)} {u : Workspace} (hv : Resized checked w v)
    (hu : Resized checked w u) (hvkept : v.Consistent) (hukept : u.Consistent) : v.Agrees u := by
  refine hvkept.agrees hukept (hv.config.trans hu.config.symm) (hv.nodes.trans hu.nodes.symm) ?_
  intro key
  rw [hv.sizes, hu.sizes]

/-- After any steps, entering sizes and then editing comes to the same as editing and then entering
the sizes, if all of this is answered: the answers are the same, and so are the configuration, the
nodes with their sizes and measures, the totals, the written form and the size of every label. -/
theorem ReachedBy.resize_edit (h : w.ReachedBy admits) (hedit : action.isEdit = true)
    {resizedFirst editedThen editedFirst resizedThen : Answer}
    (hresize : (w.perform (.resize given)).outcome = .ok resizedFirst)
    (hthen : ((w.perform (.resize given)).workspace.perform action).outcome = .ok editedThen)
    (hfirst : (w.perform action).outcome = .ok editedFirst)
    (hlast : ((w.perform action).workspace.perform (.resize given)).outcome = .ok resizedThen) :
    let one := ((w.perform (.resize given)).workspace.perform action).workspace
    let other := ((w.perform action).workspace.perform (.resize given)).workspace
    editedThen = editedFirst ∧ resizedFirst = resizedThen ∧ one.Agrees other ∧
      one.text = other.text := by
  intro one other
  suffices hall : editedThen = editedFirst ∧ resizedFirst = resizedThen ∧ one.Agrees other by
    obtain ⟨hanswer, hreply, hagrees⟩ := hall
    exact ⟨hanswer, hreply, hagrees, by rw [text, text, Plan.text, Plan.text, hagrees.root]⟩
  have hw := h.wellFormed
  rcases perform_resize given with ⟨refusal, hrefused⟩ | ⟨checked, hresized⟩
  · obtain ⟨hkept, hreply⟩ := hrefused w
    obtain ⟨hkeptThen, hreplyThen⟩ := hrefused (w.perform action).workspace
    rw [hkept] at hthen
    refine ⟨Except.ok.inj (hthen.symm.trans hfirst), ?_, ?_⟩
    · rw [hreply _ hresize, hreplyThen _ hlast]
    · have hsame : one = other :=
        (congrArg (fun w => (perform w action).workspace) hkept).trans hkeptThen.symm
      exact hsame ▸ Agrees.refl one
  · obtain ⟨hv, hreply⟩ := hresized w
    obtain ⟨hother, hreplyThen⟩ := hresized (w.perform action).workspace
    obtain rfl := hreply _ hresize
    obtain rfl := hreplyThen _ hlast
    obtain ⟨hanswer, hone⟩ := hv.perform hedit hw (hw.perform _) hfirst hthen
    refine ⟨hanswer, rfl, hone.agrees hother ?_ ?_⟩
    · exact (hw.consistent hresize rfl).perform hthen
    · exact (hw.perform action).consistent hlast rfl

/-- A size that is entered for a label before a renaming brings it in goes before the default. -/
theorem resize_edit_new_label : ∃ w : Workspace, w.ReachedBy (fun _ => True) ∧
    let given : Table Datum := ⟨[("z", .int 7), ("k", .int 3)]⟩
    let patch : Patch :=
      { root := some ⟨.text "node_2", ["i", "z"]⟩, right := some ⟨.text "node_1", ["k", "z"]⟩ }
    let one := ((w.perform (.resize given)).workspace.perform (.rename (.patch patch))).workspace
    let other := ((w.perform (.rename (.patch patch))).workspace.perform (.resize given)).workspace
    w.plan.sizes.get? "z" = none ∧
      (w.perform (.rename (.patch patch))).workspace.plan.sizes.get? "z" = some 2 ∧
      one.plan.sizes.get? "z" = some 7 ∧ one.totals.operations = 70 ∧ one.Agrees other ∧
      one.text = other.text := by
  let given : Table Datum := ⟨[("z", .int 7), ("k", .int 3)]⟩
  let patch : Patch :=
    { root := some ⟨.text "node_2", ["i", "z"]⟩, right := some ⟨.text "node_1", ["k", "z"]⟩ }
  let answered := fun (w : Workspace) action =>
    (w.perform action).outcome.toOption.any fun _ => true
  obtain ⟨w, hw, htest⟩ := exists_reachedBy (fun _ => True) {} (some "[i,k],[k,j]->[i,j]") .empty
    (fun w =>
      let resized := (w.perform (.resize given)).workspace
      let renamed := (w.perform (.rename (.patch patch))).workspace
      let one := (resized.perform (.rename (.patch patch))).workspace
      (answered w (.resize given) && answered resized (.rename (.patch patch)) &&
        answered w (.rename (.patch patch)) && answered renamed (.resize given)) &&
      (decide (w.plan.sizes.get? "z" = none) && decide (renamed.plan.sizes.get? "z" = some 2) &&
        decide (one.plan.sizes.get? "z" = some 7) && decide (one.totals.operations = 70)))
    (by decide +kernel)
  simp only [Bool.and_eq_true, decide_eq_true_eq] at htest
  obtain ⟨⟨⟨⟨hresize, hthen⟩, hfirst⟩, hlast⟩, ⟨⟨hbefore, hdefault⟩, hsize⟩, htotal⟩ := htest
  obtain ⟨_, hresize, -⟩ := exists_ok_of_any hresize
  obtain ⟨_, hthen, -⟩ := exists_ok_of_any hthen
  obtain ⟨_, hfirst, -⟩ := exists_ok_of_any hfirst
  obtain ⟨_, hlast, -⟩ := exists_ok_of_any hlast
  obtain ⟨-, -, hagrees, htext⟩ := hw.resize_edit rfl hresize hthen hfirst hlast
  exact ⟨w, hw, hbefore, hdefault, hsize, htotal, hagrees, htext⟩

end Workspace

end Contraction
