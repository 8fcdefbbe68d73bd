import Contraction.Proofs.Store.Renaming
import Contraction.Proofs.Workspace.PlanNumbers
import Contraction.Store.Workspaces

/-!
# Workspaces on a store and workspaces of values

A workspace on a store follows a workspace whose plan is a value: its tree holds that plan, in
records that lie from a place on. `Passes` says once what any step does to both. It is refused, and
then it has at most made new records; or the tree is replaced by one that has been made since; or
the records of the tree are written to, and no others. All the while the answers and the notices are
the same, an edit handing out the tree that is then current.

* `Follows.perform`, `Follows.run` — what a step and what any number of steps does
* `Follows.planAt_run` — a tree that was current holds the plan of its number
-/

namespace Contraction

/-- What a workspace on a store answers. -/
inductive StoredAnswer where
  | reply (refusal : Option Refusal)
  | edit (edited : StoredEdited)

namespace StoredAnswer

/-- Nothing was refused. -/
def accepted : StoredAnswer → Bool
  | reply refusal => refusal.isNone
  | edit edited => edited.applied

/-- The tree that the answer hands out. -/
def tree? : StoredAnswer → Option Ref
  | reply _ => none
  | edit edited => some edited.tree

end StoredAnswer

/-- The answer that hands out a tree in place of the number of a plan. -/
def Answer.onTree (tree : Ref) : Answer → StoredAnswer
  | reply refusal => .reply refusal
  | edit edited => .edit ⟨edited.error, tree⟩

theorem Answer.accepted_onTree (tree : Ref) (a : Answer) :
    (a.onTree tree).accepted = a.accepted := by
  cases a <;> rfl

/-- An answer on a tree is that of a number, and hands out the tree if it is that of an edit. -/
theorem Answer.of_onTree {tree : Ref} {outcome : Except Fault Answer} {answer : StoredAnswer}
    (h : outcome.map (onTree tree) = .ok answer) :
    ∃ a, outcome = .ok a ∧ a.accepted = answer.accepted ∧
      ∀ t, answer.tree? = some t → t = tree ∧ a ≠ .reply none := by
  obtain ⟨a, ha, rfl⟩ := except_map_eq_ok.mp h
  refine ⟨a, ha, (accepted_onTree tree a).symm, fun t ht => ?_⟩
  cases a with
  | reply refusal => cases ht
  | edit edited => exact ⟨(Option.some.inj ht).symm, nofun⟩

namespace StoredStep

/-- The step with its answer put in another form. -/
def map {α β : Type} (f : α → β) (s : StoredStep α) : StoredStep β :=
  { s with outcome := s.outcome.map f }

end StoredStep

namespace StoredWorkspace

/-- Takes a step. -/
def perform (x : StoredWorkspace) : Action → Option (StoredStep StoredAnswer)
  | .read text given => (x.readText text given).map (·.map .reply)
  | .resize given => (x.setSizes given).map (·.map .reply)
  | .configure changes => (x.changeSettings changes).map (·.map .reply)
  | .swap id => (x.swapAt id).map (·.map .edit)
  | .wrap id => (x.wrapAt id).map (·.map .edit)
  | .remove id => (x.removeAt id).map (·.map .edit)
  | .rename input => (x.rename input).map (·.map .edit)

/-- The workspace after some steps, whatever they answer. -/
def run (x : StoredWorkspace) (actions : List Action) : Option StoredWorkspace :=
  actions.foldlM (fun x action => (x.perform action).map StoredStep.workspace) x

/-- A workspace of values is that of a store: the tree holds the plan. -/
structure Follows (base : Nat) (x : StoredWorkspace) (w : Workspace) : Prop where
  config : x.config = w.config
  totals : x.totals = w.totals
  held : x.store.Held base x.tree w.plan

namespace Follows

variable {base : Nat} {x : StoredWorkspace} {w : Workspace}

theorem plan?_eq (h : x.Follows base w) : x.plan? = some w.plan := by
  obtain ⟨i, links, hplan⟩ := h.held
  exact hplan.planAt

/-- What is read off a workspace on a store is read off the workspace of values, but for the plans
that were current before. -/
theorem view?_eq (h : x.Follows base w) : x.view? = some { w with replaced := [] } := by
  unfold view?
  rw [h.plan?_eq, h.config, h.totals]
  rfl

/-- Records from elsewhere make no difference. -/
theorem kept {store : Store} (h : x.Follows base w)
    (hkept : Store.Kept x.store.size x.store store) :
    Follows base { x with store } w where
  config := h.config
  totals := h.totals
  held := h.held.kept hkept

end Follows

/-- What a step does to a workspace on a store, against what it does to the workspace of values. -/
inductive Passes (base : Nat) (x : StoredWorkspace) (w : Workspace) :
    StoredStep StoredAnswer → Step Answer → Prop where
  | refused {store : Store} (outcome : Except Fault Answer) {notices : List Notice}
      (hno : ∀ a, outcome = .ok a → a.accepted = false)
      (hkept : Store.Kept x.store.size x.store store) :
      Passes base x w ⟨{ x with store }, outcome.map (Answer.onTree x.tree), notices⟩
        ⟨w, outcome, notices⟩
  | replaced {y : StoredWorkspace} {v : Workspace} (outcome : Except Fault Answer)
      {notices : List Notice} (hyes : ∀ a, outcome = .ok a → a.accepted = true)
      (hkept : Store.Kept x.store.size x.store y.store) (hy : y.Follows x.store.size v)
      (hreplaced : v.replaced = w.replaced ++ [w.plan]) :
      Passes base x w ⟨y, outcome.map (Answer.onTree y.tree), notices⟩ ⟨v, outcome, notices⟩
  | written {y : StoredWorkspace} {v : Workspace} (outcome : Except Fault Answer)
      {notices : List Notice} (hyes : ∀ a, outcome = .ok a → a = .reply none)
      (htree : y.tree = x.tree) (hkept : Store.Kept base x.store y.store) (hy : y.Follows base v)
      (hreplaced : v.replaced = w.replaced) :
      Passes base x w ⟨y, outcome.map (Answer.onTree y.tree), notices⟩ ⟨v, outcome, notices⟩

namespace Passes

variable {base : Nat} {x : StoredWorkspace} {w : Workspace} {store : Store}
  {step : StoredStep StoredAnswer} {s : Step Answer} {notices : List Notice}

theorem of_fault (fault : Fault) (hkept : Store.Kept x.store.size x.store store) :
    Passes base x w ⟨{ x with store }, .error fault, notices⟩ ⟨w, .error fault, notices⟩ :=
  .refused (.error fault) (fun a ha => by cases ha) hkept

theorem of_refusal (a : Answer) (hno : a.accepted = false)
    (hkept : Store.Kept x.store.size x.store store) :
    Passes base x w ⟨{ x with store }, .ok (a.onTree x.tree), notices⟩ ⟨w, .ok a, notices⟩ := by
  refine .refused (.ok a) (fun b hb => ?_) hkept
  rw [← Except.ok.inj hb]
  exact hno

/-- The answers are the same, but for the tree that an edit hands out, and so are the notices. -/
theorem same (h : Passes base x w step s) :
    step.outcome = s.outcome.map (Answer.onTree step.workspace.tree) ∧
      step.notices = s.notices := by
  cases h <;> exact ⟨rfl, rfl⟩

/-- After a step, the workspace on the store follows the workspace of values, in records that were
its own before or are new. -/
theorem follows (h : Passes base x w step s) (hx : x.Follows base w) :
    ∃ base', base ≤ base' ∧ step.workspace.Follows base' s.workspace ∧
      Store.Kept base x.store step.workspace.store := by
  obtain ⟨i, links, hplan⟩ := hx.held
  cases h with
  | refused outcome hno hkept =>
    exact ⟨base, Nat.le_refl _, hx.kept hkept, hkept.mono hplan.base_le⟩
  | replaced outcome hyes hkept hy hreplaced =>
    exact ⟨x.store.size, hplan.base_le, hy, hkept.mono hplan.base_le⟩
  | written outcome hyes htree hkept hy hreplaced => exact ⟨base, Nat.le_refl _, hy, hkept⟩

theorem of_map {α : Type} {f : α → StoredAnswer} {work : Option (StoredStep α)}
    (h : ∃ step, work = some step ∧ Passes base x w (step.map f) s) :
    ∃ step, work.map (·.map f) = some step ∧ Passes base x w step s := by
  obtain ⟨step, rfl, hpasses⟩ := h
  exact ⟨_, rfl, hpasses⟩

end Passes

namespace Follows

variable {base : Nat} {x : StoredWorkspace} {w : Workspace}

/-- Measuring writes to the records of the tree. -/
theorem measured (h : x.Follows base w) :
    ∃ y, x.measured = some ⟨y, w.measured.outcome, w.measured.notices⟩ ∧ y.tree = x.tree ∧
      Store.Kept base x.store y.store ∧ y.Follows base w.measured.workspace := by
  obtain ⟨s', hwork, hkept, hheld⟩ := h.held.measure w.config
  unfold StoredWorkspace.measured Workspace.measured
  rw [h.config, hwork]
  dsimp only [bind, Option.bind]
  generalize w.plan.root.measureUnder w.plan.sizeData w.config = m at hheld ⊢
  rw [← h.config]
  cases hm : m.outcome with
  | error fault => exact ⟨{ x with store := s' }, rfl, rfl, hkept, rfl, h.totals, hheld⟩
  | ok totals => exact ⟨{ x with totals, store := s' }, rfl, rfl, hkept, rfl, rfl, hheld⟩

/-! ## Steps in place -/

/-- The step that measures the same tree, with other sizes or settings. -/
theorem written {x' : StoredWorkspace} {v : Workspace} (h : x'.Follows base v)
    (htree : x'.tree = x.tree) (hkept : Store.Kept base x.store x'.store)
    (hreplaced : v.replaced = w.replaced) :
    ∃ step : StoredStep (Option Refusal),
      (do let step ← x'.measured
          return ⟨step.workspace, step.outcome.map fun _ => none, step.notices⟩) = some step ∧
      Passes base x w (step.map .reply)
        (Step.map .reply ⟨v.measured.workspace, v.measured.outcome.map fun _ => none,
          v.measured.notices⟩) := by
  obtain ⟨y, hmeasured, htree', hkept', hy⟩ := h.measured
  have hreplaced' := v.replaced_measured.trans hreplaced
  rw [hmeasured]
  refine ⟨_, rfl, ?_⟩
  dsimp only
  cases v.measured.outcome with
  | error fault =>
    exact .written (.error fault) (by rintro a ⟨⟩) (htree'.trans htree)
      (hkept.trans hkept') hy hreplaced'
  | ok =>
    exact .written (.ok (.reply none)) (by rintro a ⟨⟩; rfl) (htree'.trans htree)
      (hkept.trans hkept') hy hreplaced'

theorem setSizes (h : x.Follows base w) (given : Table Datum) :
    ∃ step, x.setSizes given = some step ∧
      Passes base x w (step.map .reply) ((w.setSizes given).map .reply) := by
  obtain ⟨s', hwork, hkept, hsame, hheld⟩ := h.held.setSizes given
  unfold StoredWorkspace.setSizes Workspace.setSizes
  rw [hwork]
  dsimp only [bind, Option.bind]
  cases hset : w.plan.setSizes given with
  | error fault =>
    obtain rfl := hsame fault hset
    cases fault with
    | setting error =>
      exact ⟨_, rfl, .of_refusal (.reply (some (.setting error))) rfl (.refl ..)⟩
    | _ => exact ⟨_, rfl, .of_fault _ (.refl ..)⟩
  | ok plan =>
    have hready : Follows base { x with store := s' } { w with plan } :=
      ⟨h.config, h.totals, hheld plan hset⟩
    exact hready.written rfl hkept rfl

theorem changeSettings (h : x.Follows base w) (changes : Table Datum) :
    ∃ step, x.changeSettings changes = some step ∧
      Passes base x w (step.map .reply) ((w.changeSettings changes).map .reply) := by
  unfold StoredWorkspace.changeSettings Workspace.changeSettings
  rw [h.config]
  by_cases hreserved : (changes.get? Workspace.reservedName).isSome
  · rw [if_pos hreserved, if_pos hreserved]
    exact ⟨_, rfl, .of_fault _ (.refl ..)⟩
  · rw [if_neg hreserved, if_neg hreserved]
    cases ((Settings.ofConfig w.config).change changes.entries).bind Settings.check with
    | error fault =>
      dsimp only
      cases Workspace.settingRefusal? fault with
      | none => exact ⟨_, rfl, .of_fault _ (.refl ..)⟩
      | some error =>
        exact ⟨_, rfl, .of_refusal (.reply (some (.setting error))) rfl (.refl ..)⟩
    | ok config =>
      have hready : Follows base { x with config } { w with config } := ⟨rfl, h.totals, h.held⟩
      exact hready.written rfl (.refl ..) rfl

/-! ## Steps to another tree -/

theorem readText (h : x.Follows base w) (text : Option String) (given : Table Datum) :
    ∃ step, x.readText text given = some step ∧
      Passes base x w (step.map .reply) ((w.readText text given).map .reply) := by
  unfold StoredWorkspace.readText Workspace.readText Workspace.sized
  rw [← h.config]
  cases Plan.ofText text with
  | error error =>
    exact ⟨_, rfl, .of_refusal (.reply (some (.text error))) rfl (.refl ..)⟩
  | ok plan =>
  obtain ⟨t, s₁, hplace, hkept₁, hheld₁⟩ := Store.place_held x.store plan
  obtain ⟨s₂, hsize, hkept₂, hheld₂⟩ :=
    hheld₁.setCompleteSizes (w.plan.sizeData.override given) (.int x.config.defaultSize)
  have hkept := hkept₁.trans hkept₂
  dsimp only
  rw [h.plan?_eq, hplace]
  dsimp only [bind, Option.bind]
  rw [hsize]
  cases hsized : plan.setCompleteSizes (w.plan.sizeData.override given)
      (.int x.config.defaultSize) with
  | error fault =>
    cases fault with
    | setting error =>
      exact ⟨_, rfl, .of_refusal (.reply (some (.setting error))) rfl hkept⟩
    | _ => exact ⟨_, rfl, .of_fault _ hkept⟩
  | ok sized =>
    have hready : Follows x.store.size { x with tree := t, store := s₂ } (w.replacePlan sized) :=
      ⟨h.config, h.totals, hheld₂ sized hsized⟩
    obtain ⟨y, hmeasured, htree, hkept₃, hy⟩ := hready.measured
    have hkept := hkept.trans hkept₃
    have hreplaced := (w.replacePlan sized).replaced_measured
    dsimp only [Except.map]
    rw [hmeasured]
    dsimp only
    rw [hy.plan?_eq]
    dsimp only [Workspace.text]
    cases (w.replacePlan sized).measured.outcome with
    | error fault =>
      exact ⟨_, rfl, .replaced (.error fault) (by rintro a ⟨⟩) hkept hy hreplaced⟩
    | ok done =>
      obtain ⟨⟩ := done
      cases (w.replacePlan sized).measured.workspace.plan.text with
      | error fault =>
        exact ⟨_, rfl, .replaced (.error fault) (by rintro a ⟨⟩) hkept hy hreplaced⟩
      | ok written =>
        exact ⟨_, rfl,
          .replaced (.ok (.reply none)) (by rintro a ⟨⟩; rfl) hkept hy hreplaced⟩

/-- An edit is made on a copy, and writes to nothing that was there before. -/
theorem tryEdit (h : x.Follows base w) (action : EditAction) (nodeId : Datum)
    {work : Ref → Stored TreeChange} {edit : Plan → Change}
    (hwork : ∀ {s : Store} {t : Nat}, s.Held x.store.size t w.plan.withoutMeasures →
      s.Edits x.store.size t (work t) (edit w.plan.withoutMeasures)) :
    ∃ step, x.tryEdit action nodeId work = some step ∧
      Passes base x w (step.map .edit) ((w.tryEdit action nodeId edit).map .edit) := by
  obtain ⟨t, s₁, hclone, hkept₁, hheld₁⟩ := h.held.clone
  obtain ⟨s₂, hedit, hkept₂, hheld₂⟩ := hwork hheld₁
  have hkept := hkept₁.trans hkept₂
  unfold StoredWorkspace.tryEdit Workspace.tryEdit
  rw [hclone]
  dsimp only [bind, Option.bind]
  rw [hedit]
  generalize edit w.plan.withoutMeasures = change at hheld₂ ⊢
  obtain ⟨outcome, notices⟩ := change
  cases outcome with
  | error fault => exact ⟨_, rfl, .of_fault _ hkept⟩
  | ok edited =>
    cases edited with
    | none =>
      exact ⟨_, rfl, .of_refusal (.edit ⟨some ⟨action, nodeId⟩, w.planNumber⟩) rfl hkept⟩
    | some plan =>
      have hready : Follows x.store.size { x with tree := t, store := s₂ } (w.replacePlan plan) :=
        ⟨h.config, h.totals, hheld₂ plan rfl⟩
      obtain ⟨y, hmeasured, rfl, hkept₃, hy⟩ := hready.measured
      have hkept := hkept.trans hkept₃
      have hreplaced := (w.replacePlan plan).replaced_measured
      dsimp only [Except.map, Option.isSome]
      rw [hmeasured]
      refine ⟨_, rfl, ?_⟩
      dsimp only
      cases (w.replacePlan plan).measured.outcome with
      | error fault =>
        exact .replaced (.error fault) (by rintro a ⟨⟩) hkept hy hreplaced
      | ok =>
        exact .replaced (.ok (.edit ⟨none, _⟩)) (by rintro a ⟨⟩; rfl) hkept hy hreplaced

/-- An edit at a node is made where the node is named by a text. -/
theorem tryEditAt (h : x.Follows base w) (action : EditAction) (id : Datum)
    {work : Ref → String → Stored (Except Fault Bool)}
    {edit : Plan → String → Except Fault (Option Plan)}
    (hwork : ∀ {s : Store} {t : Nat} {p : Plan} (name : String), s.Held x.store.size t p →
      ∃ s', work t name s = some ((edit p name).map Option.isSome, s') ∧
        Store.Kept x.store.size s s' ∧
        ∀ q, edit p name = .ok (some q) → s'.Held x.store.size t q) :
    ∃ step, x.tryEditAt action id work = some step ∧
      Passes base x w (step.map .edit) ((w.tryEditAt action id edit).map .edit) := by
  refine h.tryEdit action id fun hheld => ?_
  cases id with
  | text name =>
    obtain ⟨s', hedit, hkept, hheld'⟩ := hwork name hheld
    refine ⟨s', ?_, hkept, hheld'⟩
    dsimp only
    rw [Stored.bind_of_eq hedit]
    rfl
  | _ => exact ⟨_, rfl, .refl .., fun q hq => by cases hq⟩

theorem swapAt (h : x.Follows base w) (id : Datum) :
    ∃ step, x.swapAt id = some step ∧
      Passes base x w (step.map .edit) ((w.swapAt id).map .edit) := by
  refine h.tryEditAt .swap id fun {s t p} name hheld => ?_
  obtain ⟨s', hedit, hkept, hheld'⟩ := hheld.swapAt name
  exact ⟨s', by rw [Stored.bind_of_eq hedit]; rfl, hkept, fun q hq => hheld' q (Except.ok.inj hq)⟩

theorem wrapAt (h : x.Follows base w) (id : Datum) :
    ∃ step, x.wrapAt id = some step ∧
      Passes base x w (step.map .edit) ((w.wrapAt id).map .edit) :=
  h.tryEditAt .wrap id fun name hheld => hheld.wrapAt name

theorem removeAt (h : x.Follows base w) (id : Datum) :
    ∃ step, x.removeAt id = some step ∧
      Passes base x w (step.map .edit) ((w.removeAt id).map .edit) := by
  refine h.tryEditAt .remove id fun {s t p} name hheld => ?_
  obtain ⟨s', hedit, hkept, hheld'⟩ := hheld.removeAt name
  exact ⟨s', by rw [Stored.bind_of_eq hedit]; rfl, hkept, fun q hq => hheld' q (Except.ok.inj hq)⟩

/-- A renaming that applies is followed by the sizes of the new labels. -/
theorem renameTree {s : Store} {t : Nat} {p : Plan} (h : s.Held base t p) (config : Config)
    (input : PatchInput) :
    s.Edits base t (StoredWorkspace.renameTree config input t)
      (Workspace.renamePlan config input p) := by
  obtain ⟨s₁, hrename, hkept₁, hheld₁⟩ := h.rename input
  unfold Store.Edits StoredWorkspace.renameTree Workspace.renamePlan
  rw [Stored.bind_of_eq hrename]
  generalize p.rename input = change at hheld₁ ⊢
  obtain ⟨outcome, notices⟩ := change
  cases outcome with
  | error fault => exact ⟨s₁, rfl, hkept₁, fun q hq => by cases hq⟩
  | ok renamed =>
    cases renamed with
    | none => exact ⟨s₁, rfl, hkept₁, fun q hq => by cases hq⟩
    | some renamed =>
      obtain ⟨s₂, hsize, hkept₂, hheld₂⟩ :=
        (hheld₁ renamed rfl).setCompleteSizes .empty (.int config.defaultSize)
      refine ⟨s₂, ?_, hkept₁.trans hkept₂, fun q hq => ?_⟩
      · show (Stored.setCompleteSizes t .empty (.int config.defaultSize) >>= _) s₁ = _
        rw [Stored.bind_of_eq hsize]
        dsimp only
        cases renamed.setCompleteSizes .empty (.int config.defaultSize) <;> rfl
      · obtain ⟨sized, hsized, heq⟩ := except_map_eq_ok.mp hq
        exact hheld₂ q (Option.some.inj heq ▸ hsized)

theorem rename (h : x.Follows base w) (input : PatchInput) :
    ∃ step, x.rename input = some step ∧
      Passes base x w (step.map .edit) ((w.rename input).map .edit) := by
  unfold StoredWorkspace.rename Workspace.rename
  rw [h.config]
  exact h.tryEdit .rename (Workspace.patchNode input) fun hheld => renameTree hheld w.config input

/-! ## Steps and runs -/

/-- Every step comes to an end, and passes as it does for values. -/
theorem perform (h : x.Follows base w) (action : Action) :
    ∃ step, x.perform action = some step ∧ Passes base x w step (w.perform action) := by
  cases action with
  | read text given => exact Passes.of_map (h.readText text given)
  | resize given => exact Passes.of_map (h.setSizes given)
  | configure changes => exact Passes.of_map (h.changeSettings changes)
  | swap id => exact Passes.of_map (h.swapAt id)
  | wrap id => exact Passes.of_map (h.wrapAt id)
  | remove id => exact Passes.of_map (h.removeAt id)
  | rename input => exact Passes.of_map (h.rename input)

/-- A step answers as it does for values. -/
theorem outcome_eq (h : x.Follows base w) {action : Action} {step : StoredStep StoredAnswer}
    {a : Answer} (hstep : x.perform action = some step) (ha : (w.perform action).outcome = .ok a) :
    step.outcome = .ok (a.onTree step.workspace.tree) := by
  obtain ⟨step', hperform, hpasses⟩ := h.perform action
  obtain rfl := Option.some.inj (hstep.symm.trans hperform)
  rw [hpasses.same.1, ha]
  rfl

theorem run_cons (x : StoredWorkspace) (action : Action) (actions : List Action) :
    x.run (action :: actions) = (x.perform action).bind (·.workspace.run actions) := by
  unfold run
  rw [List.foldlM_cons]
  cases x.perform action <;> rfl

/-- Any steps come to an end, and none of them writes to the records in front of those that the tree
has at the beginning. -/
theorem run (h : x.Follows base w) (actions : List Action) :
    ∃ y base', x.run actions = some y ∧ base ≤ base' ∧ y.Follows base' (w.run actions) ∧
      Store.Kept base x.store y.store := by
  induction actions generalizing base x w with
  | nil => exact ⟨x, base, rfl, Nat.le_refl _, h, .refl ..⟩
  | cons action actions ih =>
    obtain ⟨step, hperform, hpasses⟩ := h.perform action
    obtain ⟨base₁, hle, hfollows, hkept⟩ := hpasses.follows h
    obtain ⟨y, base', hrun, hle', hy, hkept'⟩ := ih hfollows
    refine ⟨y, base', ?_, Nat.le_trans hle hle', hy, hkept.trans (hkept'.mono hle)⟩
    rw [run_cons, hperform]
    exact hrun

/-- The tree that was current under a number holds, after any steps, the plan of that number. -/
theorem planAt_run (h : x.Follows base w) (actions : List Action) :
    ∃ y, x.run actions = some y ∧
      y.store.planAt x.tree = some ((w.run actions).planAt w.planNumber) := by
  induction actions generalizing base x w with
  | nil =>
    have hcurrent : (w.run []).planAt w.planNumber = w.plan := w.planAt_planNumber
    rw [hcurrent]
    exact ⟨x, rfl, h.plan?_eq⟩
  | cons action actions ih =>
    obtain ⟨step, hperform, hpasses⟩ := h.perform action
    have hrun : w.run (action :: actions) = (w.perform action).workspace.run actions := rfl
    rw [run_cons, hperform, hrun]
    generalize w.perform action = s at hpasses ⊢
    cases hpasses with
    | refused outcome hno hkept => exact ih (h.kept hkept)
    | @replaced y v outcome notices hyes hkept hy hreplaced =>
      -- the records of the tree lie in front of all that is written to from now on
      obtain ⟨z, base', hrun, hle, hz, hkept'⟩ := hy.run actions
      obtain ⟨i, links, hplan⟩ := h.held.kept (hkept.trans hkept')
      obtain ⟨hplanAt, hlt⟩ := Workspace.planAt_of_replaced_eq hreplaced
      refine ⟨z, hrun, ?_⟩
      rw [hplan.planAt, Workspace.planAt_run actions hlt, hplanAt]
    | @written y v outcome notices hyes htree hkept hy hreplaced =>
      obtain ⟨z, hrun, hplan⟩ := ih hy
      refine ⟨z, hrun, ?_⟩
      rw [← htree, hplan]
      unfold Workspace.planNumber
      rw [hreplaced]

end Follows

end StoredWorkspace

end Contraction
