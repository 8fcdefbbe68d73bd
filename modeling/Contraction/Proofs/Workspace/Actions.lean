import Contraction.Proofs.Except
import Contraction.Workspace

/-!
# The steps of a workspace

What a caller may ask of a workspace are seven kinds of steps. `Action` names them, so that a run is
a list of actions, and `perform_cases` says once what any of them can do: it is refused or stops and
leaves the workspace as it was, or it makes another workspace ready, which is then measured.
-/

namespace Contraction

/-- What a caller may ask of a workspace. -/
inductive Action where
  | read (text : Option String) (given : Table Datum)
  | resize (given : Table Datum)
  | configure (changes : Table Datum)
  | swap (id : Datum)
  | wrap (id : Datum)
  | remove (id : Datum)
  | rename (input : PatchInput)

/-- What a workspace answers: whether it refuses, or what an edit leads to. -/
inductive Answer where
  | reply (refusal : Option Refusal)
  | edit (edited : Edited)

namespace Answer

/-- Nothing was refused. -/
def accepted : Answer → Bool
  | reply refusal => refusal.isNone
  | edit edited => edited.applied

/-- The plan that the answer hands out. -/
def planNumber? : Answer → Option Nat
  | reply _ => none
  | edit edited => some edited.planNumber

end Answer

namespace Step

variable {α β : Type}

/-- The step with its answer put in another form. -/
def map (f : α → β) (s : Step α) : Step β :=
  { s with outcome := s.outcome.map f }

/-- The workspace is as it was before, and so is the plan that an answer hands out. -/
structure Refused (w : Workspace) (s : Step Answer) : Prop where
  workspace : s.workspace = w
  answer : ∀ a, s.outcome = .ok a →
    a.accepted = false ∧ ∀ n, a.planNumber? = some n → n = w.planNumber

/-- The workspace that was made ready has been measured. There is an answer only if the measurement
has come to its end. -/
structure Accepted (ready : Workspace) (s : Step Answer) : Prop where
  workspace : s.workspace = ready.measured.workspace
  answer : ∀ a, s.outcome = .ok a → ready.measured.outcome = .ok () ∧ a.accepted = true ∧
    ∀ n, a.planNumber? = some n → n = ready.planNumber

end Step

namespace Workspace

/-- Takes a step. -/
def perform (w : Workspace) : Action → Step Answer
  | .read text given => (w.readText text given).map .reply
  | .resize given => (w.setSizes given).map .reply
  | .configure changes => (w.changeSettings changes).map .reply
  | .swap id => (w.swapAt id).map .edit
  | .wrap id => (w.wrapAt id).map .edit
  | .remove id => (w.removeAt id).map .edit
  | .rename input => (w.rename input).map .edit

/-- The workspace after some steps, whatever they answer. -/
def run (w : Workspace) (actions : List Action) : Workspace :=
  actions.foldl (fun w action => (w.perform action).workspace) w

/-- What a step makes ready to be measured. -/
inductive Ready (w : Workspace) : Action → Workspace → Prop where
  | read {text : Option String} {given : Table Datum} {plan sized : Plan}
      (h : Plan.ofText text = .ok plan) (hs : w.sized plan given = .ok sized) :
      Ready w (.read text given) (w.replacePlan sized)
  | resize {given : Table Datum} {plan : Plan} (h : w.plan.setSizes given = .ok plan) :
      Ready w (.resize given) { w with plan }
  | configure {changes : Table Datum} {settings : Settings} {config : Config}
      (h : settings.check = .ok config) : Ready w (.configure changes) { w with config }
  | swap {id : String} {plan : Plan} (h : w.plan.withoutMeasures.swapAt id = some plan) :
      Ready w (.swap (.text id)) (w.replacePlan plan)
  | wrap {id : String} {plan : Plan} (h : w.plan.withoutMeasures.wrapAt id = .ok (some plan)) :
      Ready w (.wrap (.text id)) (w.replacePlan plan)
  | remove {id : String} {plan : Plan} (h : w.plan.withoutMeasures.removeAt id = some plan) :
      Ready w (.remove (.text id)) (w.replacePlan plan)
  | rename {input : PatchInput} {renamed plan : Plan}
      (h : (w.plan.withoutMeasures.rename input).outcome = .ok (some renamed))
      (hs : renamed.setCompleteSizes .empty (.int w.config.defaultSize) = .ok plan) :
      Ready w (.rename input) (w.replacePlan plan)

variable {w : Workspace}

/-! ## Measuring -/

/-- A measurement sets measures in the plan and the totals. -/
theorem measured_workspace (w : Workspace) :
    ∃ root totals, w.measured.workspace = { w with plan := { w.plan with root }, totals } := by
  rw [measured]
  dsimp only
  split
  · exact ⟨_, w.totals, rfl⟩
  · exact ⟨_, _, rfl⟩

theorem replaced_measured (w : Workspace) : w.measured.workspace.replaced = w.replaced := by
  obtain ⟨root, totals, h⟩ := w.measured_workspace
  rw [h]

theorem planNumber_measured (w : Workspace) : w.measured.workspace.planNumber = w.planNumber := by
  rw [planNumber, planNumber, replaced_measured]

/-! ## What a step can do -/

theorem refused_of_ok {α : Type} {f : α → Answer} {x : α} {notices : List Notice}
    (hf : (f x).accepted = false) (hn : ∀ n, (f x).planNumber? = some n → n = w.planNumber) :
    ((⟨w, .ok x, notices⟩ : Step α).map f).Refused w where
  workspace := rfl
  answer := by
    intro a ha
    obtain rfl : f x = a := Except.ok.inj ha
    exact ⟨hf, hn⟩

theorem refused_of_error {α : Type} {f : α → Answer} {fault : Fault} {notices : List Notice} :
    ((⟨w, .error fault, notices⟩ : Step α).map f).Refused w where
  workspace := rfl
  answer := fun a ha => by cases ha

/-- A step that answers what it likes once the measurement has come to its end. -/
theorem accepted_of_measured {α : Type} {f : α → Answer} {x : α} {ready : Workspace}
    {outcome : Except Fault α} {notices : List Notice}
    (hx : ∀ y, outcome = .ok y → ready.measured.outcome = .ok () ∧ y = x)
    (hf : (f x).accepted = true) (hn : ∀ n, (f x).planNumber? = some n → n = ready.planNumber) :
    ((⟨ready.measured.workspace, outcome, notices⟩ : Step α).map f).Accepted ready where
  workspace := rfl
  answer := by
    intro a ha
    obtain ⟨y, hy, rfl⟩ := except_map_eq_ok.mp ha
    obtain ⟨hmeasured, rfl⟩ := hx y hy
    exact ⟨hmeasured, hf, hn⟩

theorem eq_of_map_const {α : Type} {outcome : Except Fault Unit} {x y : α}
    (h : (outcome.map fun _ => x) = .ok y) : outcome = .ok () ∧ y = x := by
  obtain ⟨_, hunit, heq⟩ := except_map_eq_ok.mp h
  exact ⟨hunit, heq.symm⟩

theorem readText_cases (w : Workspace) (text : Option String) (given : Table Datum) :
    ((w.readText text given).map .reply).Refused w ∨ ∃ ready, w.Ready (.read text given) ready ∧
      ((w.readText text given).map .reply).Accepted ready := by
  unfold readText
  split
  · exact Or.inl (refused_of_ok rfl fun n hn => by cases hn)
  · next plan hplan =>
    split
    · exact Or.inl (refused_of_ok rfl fun n hn => by cases hn)
    · exact Or.inl refused_of_error
    · next sized hsized =>
      refine Or.inr ⟨_, .read hplan hsized, ?_⟩
      dsimp only
      split
      · next hmeasured hwritten =>
        exact accepted_of_measured (fun y hy => ⟨hmeasured, (Except.ok.inj hy).symm⟩) rfl
          fun n hn => by cases hn
      · exact accepted_of_measured (x := none) (fun y hy => by cases hy) rfl
          fun n hn => by cases hn
      · exact accepted_of_measured (x := none) (fun y hy => by cases hy) rfl
          fun n hn => by cases hn

theorem setSizes_cases (w : Workspace) (given : Table Datum) :
    ((w.setSizes given).map .reply).Refused w ∨ ∃ ready, w.Ready (.resize given) ready ∧
      ((w.setSizes given).map .reply).Accepted ready := by
  unfold setSizes
  split
  · exact Or.inl (refused_of_ok rfl fun n hn => by cases hn)
  · exact Or.inl refused_of_error
  · next plan hplan =>
    exact Or.inr ⟨_, .resize hplan, accepted_of_measured (fun y hy => eq_of_map_const hy) rfl
      fun n hn => by cases hn⟩

theorem changeSettings_cases (w : Workspace) (changes : Table Datum) :
    ((w.changeSettings changes).map .reply).Refused w ∨
      ∃ ready, w.Ready (.configure changes) ready ∧
        ((w.changeSettings changes).map .reply).Accepted ready := by
  unfold changeSettings
  split
  · exact Or.inl refused_of_error
  · split
    · next fault hfault =>
      split
      · exact Or.inl refused_of_error
      · exact Or.inl (refused_of_ok rfl fun n hn => by cases hn)
    · next config hconfig =>
      obtain ⟨settings, -, hcheck⟩ := except_bind_eq_ok.mp hconfig
      exact Or.inr ⟨_, .configure hcheck, accepted_of_measured (fun y hy => eq_of_map_const hy) rfl
        fun n hn => by cases hn⟩

/-- An edit is refused or applies, and then the edited plan takes the place of the one before. -/
theorem tryEdit_cases (w : Workspace) (action : EditAction) (nodeId : Datum)
    (edit : Plan → Change) :
    ((w.tryEdit action nodeId edit).map .edit).Refused w ∨
      ∃ plan, (edit w.plan.withoutMeasures).outcome = .ok (some plan) ∧
        ((w.tryEdit action nodeId edit).map .edit).Accepted (w.replacePlan plan) := by
  unfold tryEdit
  dsimp only
  split
  · exact Or.inl refused_of_error
  · exact Or.inl (refused_of_ok rfl fun n hn => (Option.some.inj hn).symm)
  · next plan hplan =>
    refine Or.inr ⟨plan, hplan, accepted_of_measured (fun y hy => eq_of_map_const hy) rfl ?_⟩
    intro n hn
    rw [planNumber_measured] at hn
    exact (Option.some.inj hn).symm

/-- An edit at a node applies only where the node is named by a text. -/
theorem tryEditAt_cases (w : Workspace) (action : EditAction) (id : Datum)
    (edit : Plan → String → Except Fault (Option Plan)) :
    ((w.tryEditAt action id edit).map .edit).Refused w ∨
      ∃ name plan, id = .text name ∧ edit w.plan.withoutMeasures name = .ok (some plan) ∧
        ((w.tryEditAt action id edit).map .edit).Accepted (w.replacePlan plan) := by
  rcases w.tryEdit_cases action id _ with hrefused | ⟨plan, hplan, haccepted⟩
  · exact Or.inl hrefused
  · refine Or.inr ?_
    split at hplan
    · exact ⟨_, plan, rfl, hplan, haccepted⟩
    · cases hplan

/-- A renaming that applies is followed by the sizes of the new labels. -/
theorem renamePlan_cases {config : Config} {input : PatchInput} {p : Plan} {x : Option Plan}
    (h : (renamePlan config input p).outcome = .ok x) :
    ((p.rename input).outcome = .ok none ∧ x = none) ∨
      ∃ renamed sized, (p.rename input).outcome = .ok (some renamed) ∧
        renamed.setCompleteSizes .empty (.int config.defaultSize) = .ok sized ∧ x = some sized := by
  unfold renamePlan at h
  dsimp only at h
  split at h
  · next renamed hrenamed =>
    obtain ⟨sized, hsized, rfl⟩ := except_map_eq_ok.mp h
    exact Or.inr ⟨renamed, sized, hrenamed, hsized, rfl⟩
  · next hnone =>
    cases x with
    | none => exact Or.inl ⟨h, rfl⟩
    | some plan => exact absurd h (hnone plan)

theorem renamePlan_eq_ok {config : Config} {input : PatchInput} {p plan : Plan}
    (h : (renamePlan config input p).outcome = .ok (some plan)) :
    ∃ renamed, (p.rename input).outcome = .ok (some renamed) ∧
      renamed.setCompleteSizes .empty (.int config.defaultSize) = .ok plan := by
  rcases renamePlan_cases h with ⟨-, hnone⟩ | ⟨renamed, sized, hrenamed, hsized, heq⟩
  · cases hnone
  · exact ⟨renamed, hrenamed, Option.some.inj heq ▸ hsized⟩

/-- A step is refused, or stops, and keeps the workspace; or it makes one ready and measures it. -/
theorem perform_cases (w : Workspace) (action : Action) :
    (w.perform action).Refused w ∨
      ∃ ready, w.Ready action ready ∧ (w.perform action).Accepted ready := by
  cases action with
  | read text given => exact w.readText_cases text given
  | resize given => exact w.setSizes_cases given
  | configure changes => exact w.changeSettings_cases changes
  | swap id =>
    rcases w.tryEditAt_cases .swap id _ with hrefused | ⟨name, plan, rfl, hplan, haccepted⟩
    · exact Or.inl hrefused
    · exact Or.inr ⟨_, .swap (Except.ok.inj hplan), haccepted⟩
  | wrap id =>
    rcases w.tryEditAt_cases .wrap id _ with hrefused | ⟨name, plan, rfl, hplan, haccepted⟩
    · exact Or.inl hrefused
    · exact Or.inr ⟨_, .wrap hplan, haccepted⟩
  | remove id =>
    rcases w.tryEditAt_cases .remove id _ with hrefused | ⟨name, plan, rfl, hplan, haccepted⟩
    · exact Or.inl hrefused
    · exact Or.inr ⟨_, .remove (Except.ok.inj hplan), haccepted⟩
  | rename input =>
    rcases w.tryEdit_cases .rename (patchNode input) (renamePlan w.config input) with hrefused |
      ⟨plan, hplan, haccepted⟩
    · exact Or.inl hrefused
    · obtain ⟨renamed, hrenamed, hsized⟩ := renamePlan_eq_ok hplan
      exact Or.inr ⟨_, .rename hrenamed hsized, haccepted⟩

end Workspace

end Contraction
