import Contraction.Proofs.Measurement.Sizing
import Contraction.Proofs.Plan.Numbering
import Contraction.Proofs.Workspace.Consistency

/-!
# Workspaces after any steps

A step that stops without an answer may leave a workspace in which the measures are not those of the
plan. What does not depend on measures holds all the same: a measurement touches nothing else,
wherever it ends (`Branch.measureUnder_keeps`), and so a workspace is well formed after any steps,
whether they are answered or not.

* `ReachedBy` — the workspaces that come of a beginning and of any steps of a kind
* `WellFormed` — what they keep up
-/

namespace Contraction

namespace Plan

variable {p p' : Plan}

/-- All sizes in the table are positive. -/
def HasPositiveSizes (p : Plan) : Prop :=
  ∀ name size, p.sizes.get? name = some size → 0 < size

theorem HasPositiveSizes.setSizes {given : Table Datum} (h : p.HasPositiveSizes)
    (hstep : p.setSizes given = .ok p') : p'.HasPositiveSizes := by
  obtain ⟨checked, hchecked, rfl⟩ := setSizes_eq_ok hstep
  intro name size hsize
  rcases Table.get?_insertAll p.sizes checked name with ⟨n, hmem, hget⟩ | ⟨-, hget⟩
  · obtain rfl : n = size := Option.some.inj (hget.symm.trans hsize)
    obtain ⟨⟨label, value⟩, -, hvalue⟩ := (mem_of_mapM_eq_ok hchecked).2 _ hmem
    obtain ⟨m, hm, heq⟩ := except_bind_eq_ok.mp hvalue
    obtain ⟨rfl, rfl⟩ := Prod.mk.inj (Except.ok.inj heq)
    exact sizeFrom_pos hm
  · exact h name size (hget.symm.trans hsize)

end Plan

namespace Workspace

variable {w ready : Workspace} {action : Action} {config : Config} {admits : Action → Prop}

/-- A measurement keeps everything but measures and totals. -/
theorem measured_keeps (w : Workspace) :
    ∃ root totals, root.withoutMeasures = w.plan.root.withoutMeasures ∧
      w.measured.workspace = { w with plan := { w.plan with root }, totals } := by
  have hkept := Branch.measureUnder_keeps w.plan.sizeData w.config w.plan.root
  rw [measured]
  dsimp only
  split
  · exact ⟨_, w.totals, hkept, rfl⟩
  · exact ⟨_, _, hkept, rfl⟩

/-- The configuration is one that comes of a check, the ids differ and no node has a right child
alone, every node lists the sizes of its labels, and no size in the table is below one. -/
structure WellFormed (w : Workspace) : Prop where
  config : (Settings.ofConfig w.config).check = .ok w.config
  numbered : w.plan.IsNumbered
  sized : w.plan.IsSized
  positive : w.plan.HasPositiveSizes

/-- The workspaces that come of a beginning and of steps of a kind, whether these are answered or
stop. -/
inductive ReachedBy (admits : Action → Prop) : Workspace → Prop where
  | begun {settings : Settings} {text : Option String} {given : Table Datum}
      {step : Step (Option Refusal)} {refusal : Option Refusal}
      (h : new settings text given = .ok step) (hok : step.outcome = .ok refusal) :
      ReachedBy admits step.workspace
  | performed {w : Workspace} {action : Action} (h : w.ReachedBy admits) (ha : admits action) :
      ReachedBy admits (w.perform action).workspace

theorem wellFormed_empty (h : (Settings.ofConfig config).check = .ok config) :
    ({ config } : Workspace).WellFormed where
  config := h
  numbered := Plan.isNumbered_empty
  sized := Plan.isSized_empty
  positive := fun _ _ hsize => by cases hsize

namespace WellFormed

theorem measured (h : w.WellFormed) : w.measured.workspace.WellFormed := by
  obtain ⟨root, totals, hroot, hw⟩ := w.measured_keeps
  rw [hw]
  refine ⟨h.config, ?_, h.sized.of_withoutMeasures_eq rfl hroot, h.positive⟩
  refine h.numbered.of_ids_eq ?_ rfl (Branch.leftFirst_congr hroot).mpr
  show root.ids = w.plan.root.ids
  rw [Branch.ids_eq_bareEntries, Branch.ids_eq_bareEntries, Branch.bareEntries_congr hroot]

theorem isNumbered_ready (h : w.WellFormed) (hready : w.Ready action ready) :
    ready.plan.IsNumbered := by
  have hbare := h.numbered.withoutMeasures
  cases hready with
  | read hread hsizes =>
    obtain ⟨sizes, -, hset⟩ := except_bind_eq_ok.mp hsizes
    exact (Plan.isNumbered_ofText hread).setSizes hset
  | resize hset => exact h.numbered.setSizes hset
  | configure hcheck => exact h.numbered
  | swap hswap => exact hbare.swapAt hswap
  | wrap hwrap => exact hbare.wrapAt hwrap
  | remove hremove => exact hbare.removeAt hremove
  | rename hrename hsizes =>
    obtain ⟨sizes, -, hset⟩ := except_bind_eq_ok.mp hsizes
    exact (hbare.rename hrename).setSizes hset

theorem hasPositiveSizes_ready (h : w.WellFormed) (hready : w.Ready action ready) :
    ready.plan.HasPositiveSizes := by
  cases hready with
  | read hread hsizes =>
    obtain ⟨e, rfl⟩ := Plan.ofText_eq_ok hread
    obtain ⟨sizes, -, hset⟩ := except_bind_eq_ok.mp hsizes
    exact Plan.HasPositiveSizes.setSizes (fun _ _ hsize => by cases hsize) hset
  | resize hset => exact h.positive.setSizes hset
  | configure hcheck => exact h.positive
  | swap hswap =>
    obtain ⟨root, -, rfl⟩ := Plan.swapAt_eq_some hswap
    exact h.positive
  | wrap hwrap =>
    obtain ⟨root, -, rfl⟩ := Plan.wrapAt_eq_ok hwrap
    exact h.positive
  | remove hremove =>
    obtain ⟨root, -, rfl⟩ := Plan.removeAt_eq_some hremove
    exact h.positive
  | rename hrename hsizes =>
    obtain ⟨news, root, -, rfl⟩ := Plan.rename_eq_ok hrename
    obtain ⟨sizes, -, hset⟩ := except_bind_eq_ok.mp hsizes
    refine Plan.HasPositiveSizes.setSizes ?_ hset
    exact h.positive

theorem of_ready (h : w.WellFormed) (hready : w.Ready action ready) : ready.WellFormed where
  config := hready.check_ofConfig h.config
  numbered := h.isNumbered_ready hready
  sized := hready.isSized h.sized
  positive := h.hasPositiveSizes_ready hready

/-- A step keeps this up, whether it is answered or stops. -/
theorem perform (h : w.WellFormed) (action : Action) :
    (w.perform action).workspace.WellFormed := by
  rcases w.perform_cases action with hrefused | ⟨ready, hready, haccepted⟩
  · rw [hrefused.workspace]
    exact h
  · rw [haccepted.workspace]
    exact (h.of_ready hready).measured

end WellFormed

theorem ReachedBy.wellFormed (h : w.ReachedBy admits) : w.WellFormed := by
  induction h with
  | @begun settings text given step refusal hnew hok =>
    obtain ⟨config, hconfig, rfl | rfl⟩ := new_eq_ok hnew
    · exact wellFormed_empty (Settings.check_ofConfig hconfig)
    · exact (wellFormed_empty (Settings.check_ofConfig hconfig)).perform (.read text given)
  | performed h ha ih => exact ih.perform _

/-- A workspace that has been begun is seen to pass a test. -/
theorem exists_reachedBy (admits : Action → Prop) (settings : Settings) (text : Option String)
    (given : Table Datum) (test : Workspace → Bool)
    (h : (new settings text given).toOption.any (fun step =>
      step.outcome.toOption.isSome && test step.workspace) = true) :
    ∃ w : Workspace, w.ReachedBy admits ∧ test w = true := by
  obtain ⟨step, hnew, hstep⟩ := exists_ok_of_any h
  obtain ⟨hanswered, htest⟩ := (Bool.and_eq_true _ _).mp hstep
  cases hok : step.outcome with
  | error fault =>
    rw [hok] at hanswered
    cases hanswered
  | ok refusal => exact ⟨step.workspace, .begun hnew hok, htest⟩

end Workspace

end Contraction
