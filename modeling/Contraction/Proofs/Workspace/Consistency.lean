import Contraction.Proofs.Measurement.ClosedForm
import Contraction.Proofs.Measurement.Settings
import Contraction.Proofs.Plan.Sizes
import Contraction.Proofs.Workspace.Actions

/-!
# What a workspace keeps is up to date

A workspace keeps with its plan what follows from it: the sizes at the nodes, the measures and the
totals. Every way to another workspace enters sizes or leaves the labels alone, and then measures
anew, so that what is kept is at all times what would come out if it were worked out again from the
nodes, the table and the configuration. The measures that were there before have no part in it.

* `Reached` — the workspaces that come of a beginning and of steps that are answered
* `Consistent` — what they keep up
-/

namespace Contraction

namespace Workspace

variable {w ready : Workspace} {action : Action} {answer : Answer} {config : Config}

/-- The configuration is one that comes of a check, every node lists the sizes of its labels, and a
measurement of the nodes without their measures gives the measures and the totals that are kept. -/
structure Consistent (w : Workspace) : Prop where
  config : (Settings.ofConfig w.config).check = .ok w.config
  sized : w.plan.IsSized
  outcome : (w.plan.root.withoutMeasures.measure w.plan.sizeData (.ofConfig w.config)).outcome =
    .ok w.totals
  branch : (w.plan.root.withoutMeasures.measure w.plan.sizeData (.ofConfig w.config)).branch =
    w.plan.root

/-- The workspaces that come of a beginning and of steps that are answered. -/
inductive Reached : Workspace → Prop where
  | begun {settings : Settings} {text : Option String} {given : Table Datum}
      {step : Step (Option Refusal)} {refusal : Option Refusal}
      (h : new settings text given = .ok step) (hok : step.outcome = .ok refusal) :
      Reached step.workspace
  | performed {w : Workspace} {action : Action} {answer : Answer} (h : w.Reached)
      (hok : (w.perform action).outcome = .ok answer) : Reached (w.perform action).workspace

/-! ## Measuring -/

theorem measured_eq_ok (h : w.measured.outcome = .ok ()) :
    ∃ totals, (w.plan.root.measureUnder w.plan.sizeData w.config).outcome = .ok totals ∧
      w.measured.workspace = { w with
        plan := { w.plan with
          root := (w.plan.root.measureUnder w.plan.sizeData w.config).branch }
        totals } := by
  rw [measured] at h ⊢
  dsimp only at h ⊢
  split at h
  · cases h
  · next totals htotals =>
    exact ⟨totals, htotals, rfl⟩

theorem measure_ofConfig {sizes : Table Datum} {b : Branch}
    (h : (Settings.ofConfig config).check = .ok config) :
    b.measure sizes (.ofConfig config) = b.measureUnder sizes config := by
  rw [Branch.measure, h]

/-- Sizes and a configuration make a workspace consistent as soon as it has been measured. -/
theorem consistent_measured (hconfig : (Settings.ofConfig w.config).check = .ok w.config)
    (hsized : w.plan.IsSized) (h : w.measured.outcome = .ok ()) :
    w.measured.workspace.Consistent := by
  obtain ⟨totals, houtcome, hw⟩ := measured_eq_ok h
  have hsizing : w.plan.root.measureUnder w.plan.sizeData w.config =
      w.plan.root.measureBy (fun label => .ok (w.config.sizeOf w.plan.sizes label))
        w.config.elementBytes := by
    rw [Branch.measureUnder_eq, Plan.sizeData, Sizing.ofTable_int]
  rw [hsizing] at houtcome
  -- the measurement keeps all but the measures, and none of them matter when it is made again
  have hkept := (Branch.measureBy_congr rfl houtcome).1
  obtain ⟨-, hagain, hbranch⟩ := Branch.measureBy_congr
    ((Branch.withoutMeasures_withoutMeasures _).trans hkept) houtcome
  have hremeasure (b : Branch) : b.measure w.plan.sizeData (.ofConfig w.config) =
      b.measureBy (fun label => .ok (w.config.sizeOf w.plan.sizes label))
        w.config.elementBytes := by
    rw [measure_ofConfig hconfig, Branch.measureUnder_eq, Plan.sizeData, Sizing.ofTable_int]
  rw [hw, hsizing]
  refine ⟨hconfig, ?_, ?_, ?_⟩
  · exact hsized.of_withoutMeasures_eq rfl hkept
  · exact (congrArg Measurement.outcome (hremeasure _)).trans hagain
  · exact (congrArg Measurement.branch (hremeasure _)).trans hbranch

/-! ## Steps -/

theorem Ready.check_ofConfig (h : w.Ready action ready)
    (hconfig : (Settings.ofConfig w.config).check = .ok w.config) :
    (Settings.ofConfig ready.config).check = .ok ready.config := by
  cases h with
  | configure hcheck => exact Settings.check_ofConfig hcheck
  | _ => exact hconfig

/-- What is made ready is sized: a new plan and new labels get their sizes, and no other edit brings
labels that are not there. -/
theorem Ready.isSized (h : w.Ready action ready) (hsized : w.plan.IsSized) :
    ready.plan.IsSized := by
  cases h with
  | read hread hsizes => exact Plan.setCompleteSizes_isSized hsizes (Plan.isNamed_ofText hread)
  | resize hsizes =>
    exact Plan.setSizes_isSized hsizes fun e he label hlabel =>
      Or.inl (hsized.knows e he label hlabel)
  | configure hcheck => exact hsized
  | swap hswap => exact hsized.withoutMeasures.swapAt hswap
  | wrap hwrap => exact hsized.withoutMeasures.wrapAt hwrap
  | remove hremove => exact hsized.withoutMeasures.removeAt hremove
  | rename hrename hsizes =>
    exact Plan.setCompleteSizes_isSized hsizes
      (Plan.isNamed_rename hsized.withoutMeasures.isNamed hrename)

/-- A step that is answered leaves a consistent workspace. -/
theorem Consistent.perform (hw : w.Consistent) (h : (w.perform action).outcome = .ok answer) :
    (w.perform action).workspace.Consistent := by
  rcases w.perform_cases action with hrefused | ⟨ready, hready, haccepted⟩
  · rw [hrefused.workspace]
    exact hw
  · rw [haccepted.workspace]
    exact consistent_measured (hready.check_ofConfig hw.config) (hready.isSized hw.sized)
      (haccepted.answer answer h).1

theorem consistent_empty (h : (Settings.ofConfig config).check = .ok config) :
    ({ config } : Workspace).Consistent where
  config := h
  sized := Plan.isSized_empty
  outcome := congrArg Measurement.outcome (measure_ofConfig h)
  branch := congrArg Measurement.branch (measure_ofConfig h)

theorem new_eq_ok {settings : Settings} {text : Option String} {given : Table Datum}
    {step : Step (Option Refusal)} (h : new settings text given = .ok step) :
    ∃ config, settings.check = .ok config ∧ (step = ⟨{ config }, .ok none, []⟩ ∨
      step = ({ config } : Workspace).readText text given) := by
  rw [new] at h
  split at h
  · cases h
  · next config hconfig =>
    refine ⟨config, hconfig, ?_⟩
    dsimp only at h
    split at h
    · exact Or.inl (Except.ok.inj h).symm
    · exact Or.inr (Except.ok.inj h).symm

theorem Reached.consistent (h : w.Reached) : w.Consistent := by
  induction h with
  | @begun settings text given step refusal hnew hok =>
    obtain ⟨config, hconfig, rfl | rfl⟩ := new_eq_ok hnew
    · exact consistent_empty (Settings.check_ofConfig hconfig)
    · have hempty := consistent_empty (Settings.check_ofConfig hconfig)
      -- to begin with a text is to read it into the workspace without nodes
      have hread : (({ config } : Workspace).perform (.read text given)).outcome =
          .ok (.reply refusal) := except_map_eq_ok.mpr ⟨refusal, hok, rfl⟩
      exact hempty.perform hread
  | performed hreached hok ih => exact ih.perform hok

/-- After any steps that are answered, the configuration is one that a check leaves as it is; every
label of every node has a positive size in the table; every node lists the sizes of its labels in
their order; and the totals and all measures at the nodes are those that a measurement of the nodes
alone gives, under the table and the configuration that there are. -/
theorem Reached.upToDate (h : w.Reached) :
    (Settings.ofConfig w.config).check = .ok w.config ∧
    (∀ e l r, .node e l r ∈ w.plan.root.preorder →
      (∀ label ∈ e.labels, ∃ name size, label = some name ∧ 0 < size ∧
        w.plan.sizes.get? name = some size) ∧
      ∃ sizes : List Int, e.sizes = some (sizes.map .int) ∧
        e.labels.map w.plan.sizeOf? = sizes.map some) ∧
    let again := w.plan.root.withoutMeasures.measure w.plan.sizeData (.ofConfig w.config)
    again.outcome = .ok w.totals ∧ again.branch = w.plan.root := by
  have hw := h.consistent
  refine ⟨hw.config, fun e l r hn => ⟨fun label hlabel => ?_, ?_⟩, hw.outcome, hw.branch⟩
  · obtain ⟨size, hpos, hsize⟩ :=
      hw.sized.knows e.bare (Branch.bare_mem_bareEntries hn) label hlabel
    obtain ⟨name, rfl, hget⟩ := Option.bind_eq_some_iff.mp hsize
    exact ⟨name, size, rfl, hpos, hget⟩
  · exact hw.sized.lists e.bare (Branch.bare_mem_bareEntries hn)

/-- A product is read and its operands are exchanged. -/
theorem upToDate_product : ∃ w : Workspace, w.Reached ∧
    w.plan.root.ids = ["node_2", "node_1", "node_0"] ∧ w.totals.operations = 12 ∧
    (w.plan.root.withoutMeasures.measure w.plan.sizeData (.ofConfig w.config)).outcome =
      .ok w.totals := by
  have hrun : (new {} (some "[i,k],[k,j]->[i,j]") .empty).toOption.any (fun step =>
      step.outcome.toOption.any (fun _ => true) &&
        (step.workspace.perform (.swap (.text "node_2"))).outcome.toOption.any fun _ =>
          let w := (step.workspace.perform (.swap (.text "node_2"))).workspace
          w.plan.root.ids == ["node_2", "node_1", "node_0"] && w.totals.operations == 12) =
      true := by decide +kernel
  obtain ⟨step, hnew, hsteps⟩ := exists_ok_of_any hrun
  obtain ⟨hread, hswapped⟩ := (Bool.and_eq_true _ _).mp hsteps
  obtain ⟨refusal, hread, -⟩ := exists_ok_of_any hread
  obtain ⟨answer, hswap, hseen⟩ := exists_ok_of_any hswapped
  obtain ⟨hids, htotal⟩ := (Bool.and_eq_true _ _).mp hseen
  have hreached := (Reached.begun hnew hread).performed hswap
  exact ⟨_, hreached, eq_of_beq hids, eq_of_beq htotal, hreached.upToDate.2.2.1⟩

end Workspace

end Contraction
