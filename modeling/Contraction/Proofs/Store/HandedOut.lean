import Contraction.Proofs.Store.Workspaces

/-!
# Trees that have been handed out

A step that is refused leaves all as it was: the tree, its plan with the measures, the totals, the
configuration, and every record that there is. An edit that applies hands out another tree, and then
neither the edit itself nor any later step writes to a record that was there before it. So the tree
that was current keeps its plan, for all who hold it.

* `new_follows` — a beginning
* `Reached` — the workspaces on a store that come of a beginning and of any steps
* `Reached.perform_keeps` — what a step keeps
-/

namespace Contraction.StoredWorkspace

variable {x : StoredWorkspace}

/-- The workspaces on a store that come of a beginning and of any steps, whether these are answered
or stop. -/
inductive Reached : StoredWorkspace → Prop where
  | begun {store : Store} {settings : Settings} {text : Option String} {given : Table Datum}
      {step : StoredStep (Option Refusal)} {refusal : Option Refusal}
      (h : new store settings text given = .ok (some step)) (hok : step.outcome = .ok refusal) :
      Reached step.workspace
  | performed {x : StoredWorkspace} {action : Action} {step : StoredStep StoredAnswer}
      (h : x.Reached) (hstep : x.perform action = some step) : Reached step.workspace

/-- The tree of a beginning is empty and has records of its own. -/
theorem start_follows (store : Store) (config : Config) :
    (start store config).Follows store.size { config } := by
  refine ⟨rfl, rfl, store.size, .absent, ?_, ?_, .absent, fun _ => Nat.zero_le _, ?_, Nat.le_refl _,
    fun q hq => absurd rfl hq⟩
  · unfold start Store.find?
    dsimp only
    rw [Store.get?_push, if_pos rfl]
    rfl
  · unfold start Store.find?
    dsimp only
    rw [Store.get?_push, Store.size_push, if_neg (by omega), Store.get?_push, if_pos rfl]
    rfl
  · unfold start
    dsimp only
    rw [Store.size_push]
    omega

theorem kept_start (store : Store) (config : Config) :
    Store.Kept store.size store (start store config).store := by
  have hids := Store.kept_push store (.ids ⟨0⟩)
  have htree := Store.kept_push (store.push (.ids ⟨0⟩)) (.tree { ids := store.size })
  exact hids.trans (htree.mono hids.size_le)

/-- A workspace begins without writing to the records that others have in the store. -/
theorem new_follows {store : Store} {settings : Settings} {text : Option String}
    {given : Table Datum} {begun : Option (StoredStep (Option Refusal))}
    (h : new store settings text given = .ok begun) :
    ∃ step base w, begun = some step ∧ step.workspace.Follows base w ∧
      Store.Kept store.size store step.workspace.store := by
  unfold new at h
  split at h
  · cases h
  · next config hconfig =>
    have hstart := start_follows store config
    have hkept := kept_start store config
    rw [← Except.ok.inj h]
    split
    · exact ⟨_, _, _, rfl, hstart, hkept⟩
    · obtain ⟨step, hread, hpasses⟩ := hstart.readText text given
      obtain ⟨base, -, hfollows, hkept'⟩ := hpasses.follows hstart
      exact ⟨step, base, _, hread, hfollows, hkept.trans hkept'⟩

theorem Reached.follows (h : x.Reached) : ∃ base w, x.Follows base w := by
  induction h with
  | begun hnew hok =>
    obtain ⟨step, base, w, hstep, hfollows, -⟩ := new_follows hnew
    obtain rfl := Option.some.inj hstep
    exact ⟨base, w, hfollows⟩
  | performed h hstep ih =>
    obtain ⟨base, w, hx⟩ := ih
    obtain ⟨step, hperform, hpasses⟩ := hx.perform _
    obtain rfl := Option.some.inj (hstep.symm.trans hperform)
    obtain ⟨base', -, hfollows, -⟩ := hpasses.follows hx
    exact ⟨base', _, hfollows⟩

/-- Every step comes to an end. Where it is refused, nothing at all has changed, and an edit hands
out the tree that is still current. Where an edit applies, it hands out another tree, which is then
current; whatever steps follow, no record that was there before the edit has been written to, and
the tree that was current still holds its plan. -/
theorem Reached.perform_keeps (h : x.Reached) (action : Action) :
    ∃ p step, x.plan? = some p ∧ x.perform action = some step ∧
      (∀ answer, step.outcome = .ok answer → answer.accepted = false →
        (step.workspace.tree = x.tree ∧ step.workspace.config = x.config ∧
          step.workspace.totals = x.totals ∧ step.workspace.plan? = some p) ∧
        (∀ r record, x.store.get? r = some record →
          step.workspace.store.get? r = some record) ∧
        ∀ tree, answer.tree? = some tree → tree = x.tree) ∧
      ∀ edited, step.outcome = .ok (.edit edited) → edited.applied = true →
        edited.tree = step.workspace.tree ∧ edited.tree ≠ x.tree ∧
        ∀ later, ∃ y, step.workspace.run later = some y ∧ y.store.planAt x.tree = some p ∧
          ∀ r record, x.store.get? r = some record → y.store.get? r = some record := by
  obtain ⟨base, w, hx⟩ := h.follows
  obtain ⟨step, hperform, hpasses⟩ := hx.perform action
  obtain ⟨i, links, hplan⟩ := hx.held
  refine ⟨w.plan, step, hx.plan?_eq, hperform, ?_⟩
  generalize w.perform action = s at hpasses
  cases hpasses with
  | @refused store outcome notices hno hkept =>
    refine ⟨fun answer hanswer hnot => ?_, fun edited hedited hyes => ?_⟩
    · obtain ⟨a, -, -, htree⟩ := Answer.of_onTree hanswer
      exact ⟨⟨rfl, rfl, rfl, (hplan.kept hkept).planAt⟩, fun r record => hkept.get?_eq,
        fun tree ht => (htree tree ht).1⟩
    · obtain ⟨a, ha, haccepted, -⟩ := Answer.of_onTree hedited
      rw [hno a ha] at haccepted
      exact absurd (haccepted.trans hyes) Bool.false_ne_true
  | @replaced y v outcome notices hyes hkept hy hreplaced =>
    refine ⟨fun answer hanswer hnot => ?_, fun edited hedited _ => ?_⟩
    · obtain ⟨a, ha, haccepted, -⟩ := Answer.of_onTree hanswer
      rw [hyes a ha] at haccepted
      exact absurd (haccepted.trans hnot).symm Bool.false_ne_true
    · obtain ⟨a, -, -, htree⟩ := Answer.of_onTree hedited
      obtain ⟨htree, -⟩ := htree edited.tree rfl
      obtain ⟨i', links', hnew⟩ := hy.held
      refine ⟨htree, ?_, fun later => ?_⟩
      · -- the new tree lies behind all records that were there
        rw [htree]
        exact Nat.ne_of_gt (Nat.lt_of_lt_of_le hplan.lt_size.1 hnew.tree_le)
      · obtain ⟨z, base', hrun, hle, hz, hkept'⟩ := hy.run later
        have hkept := hkept.trans hkept'
        exact ⟨z, hrun, (hplan.kept hkept).planAt, fun r record => hkept.get?_eq⟩
  | @written y v outcome notices hyes htree hkept hy hreplaced =>
    refine ⟨fun answer hanswer hnot => ?_, fun edited hedited _ => ?_⟩
    · obtain ⟨a, ha, haccepted, -⟩ := Answer.of_onTree hanswer
      rw [hyes a ha] at haccepted
      exact absurd (haccepted.trans hnot).symm Bool.false_ne_true
    · obtain ⟨a, ha, -, htree⟩ := Answer.of_onTree hedited
      exact absurd (hyes a ha) (htree edited.tree rfl).2

/-- A product is read. It is refused to exchange the operands of a leaf; those of the product are
exchanged in another tree. -/
theorem perform_keeps_product : ∃ x : StoredWorkspace, x.Reached ∧ ∃ p, x.plan? = some p ∧
    p.root.ids = ["node_2", "node_0", "node_1"] ∧
    (∃ step answer, x.perform (.swap (.text "node_0")) = some step ∧ step.outcome = .ok answer ∧
      answer.accepted = false ∧ step.workspace.plan? = some p) ∧
    ∃ step edited, x.perform (.swap (.text "node_2")) = some step ∧
      step.outcome = .ok (.edit edited) ∧ edited.applied = true ∧ edited.tree ≠ x.tree ∧
      ∀ later, ∃ y, step.workspace.run later = some y ∧ y.store.planAt x.tree = some p := by
  let text := some "[i,k],[k,j]->[i,j]"
  let w : Workspace := (({} : Workspace).perform (.read text .empty)).workspace
  -- a store without records
  have hcheck : ({} : Settings).check = .ok {} := by cbv
  have hnew : new {} {} none .empty = .ok (some ⟨start {} {}, .ok none, []⟩) := by
    unfold new
    rw [hcheck]
    rfl
  have hstart := start_follows {} {}
  obtain ⟨read, hread, hpasses⟩ := hstart.perform (.read text .empty)
  obtain ⟨base, -, hx, -⟩ := hpasses.follows hstart
  have hreached := (Reached.begun hnew rfl).performed hread
  have hplan : read.workspace.plan? = some w.plan := hx.plan?_eq
  refine ⟨read.workspace, hreached, w.plan, hplan, by decide +kernel, ?_, ?_⟩
  · obtain ⟨a, ha, hnot⟩ := exists_ok_of_any (x := (w.perform (.swap (.text "node_0"))).outcome)
      (p := fun a => !a.accepted) (by decide +kernel)
    obtain ⟨p, step, hp, hstep, hrefused, -⟩ := hreached.perform_keeps (.swap (.text "node_0"))
    obtain rfl : w.plan = p := Option.some.inj (hplan.symm.trans hp)
    have houtcome := hx.outcome_eq hstep ha
    have hnot : (a.onTree step.workspace.tree).accepted = false := by
      rw [Answer.accepted_onTree, ← Bool.not_eq_true']
      exact hnot
    exact ⟨step, _, hstep, houtcome, hnot, (hrefused _ houtcome hnot).1.2.2.2⟩
  · obtain ⟨a, ha, hyes⟩ := exists_ok_of_any (x := (w.perform (.swap (.text "node_2"))).outcome)
      (p := fun a => a.accepted && a.planNumber?.isSome) (by decide +kernel)
    rw [Bool.and_eq_true] at hyes
    obtain ⟨p, step, hp, hstep, -, happlied⟩ := hreached.perform_keeps (.swap (.text "node_2"))
    obtain rfl : w.plan = p := Option.some.inj (hplan.symm.trans hp)
    have houtcome := hx.outcome_eq hstep ha
    cases a with
    | reply refusal => cases hyes.2
    | edit edited =>
      obtain ⟨-, hother, hkept⟩ := happlied _ houtcome hyes.1
      refine ⟨step, _, hstep, houtcome, hyes.1, hother, fun later => ?_⟩
      obtain ⟨y, hrun, hy, -⟩ := hkept later
      exact ⟨y, hrun, hy⟩

end Contraction.StoredWorkspace
