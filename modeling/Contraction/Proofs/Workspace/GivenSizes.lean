import Contraction.Proofs.Workspace.Replies

/-!
# Sizes given with a text

The sizes that come with a text are for its labels: the others are not looked at, and labels without
one get a size that is known or the default, which is positive in every workspace that is reached.
What is given is made an integer first and checked afterwards, while `Plan.sizeFrom` checks the
value itself. The two agree on numbers that are equal to integers. Otherwise reading a text accepts
more, and it stops where a value stands for no integer.
-/

namespace Contraction

open Number

/-- A size is given for a label of the plan. -/
def Plan.IsGiven (p : Plan) (given : Table Datum) (name : String) (value : Datum) : Prop :=
  some name ∈ p.labels ∧ given.get? name = some value

namespace Workspace

variable {w : Workspace} {plan : Plan} {text : Option String} {given : Table Datum} {name : String}
  {value : Datum} {admits : Action → Prop}

theorem WellFormed.defaultSize_pos (h : w.WellFormed) : 0 < w.config.defaultSize :=
  (Settings.check_pos h.config).2

/-- A label for which a size is given gets the integer that it stands for. -/
theorem sizeFor_of_given (hgiven : (given.entries.map Prod.fst).Nodup)
    (hvalue : given.get? name = some value) :
    plan.sizeFor (w.plan.sizeData.override given) (.int w.config.defaultSize) (some name) =
      value.toInteger := by
  rw [Plan.sizeFor, Option.bind_some, Table.get?_override hgiven, hvalue]
  rfl

/-- A label for which none is given gets a positive size. -/
theorem sizeFor_of_not_given (h : w.WellFormed) (hplan : Plan.ofText text = .ok plan)
    (hgiven : (given.entries.map Prod.fst).Nodup) (hnone : given.get? name = none) :
    ∃ n, plan.sizeFor (w.plan.sizeData.override given) (.int w.config.defaultSize) (some name) =
      .ok n ∧ 0 < n := by
  obtain ⟨e, rfl⟩ := Plan.ofText_eq_ok hplan
  rw [Plan.sizeFor, Option.bind_some, Table.get?_override hgiven, hnone, Option.none_or,
    Plan.sizeData, Table.get?_map]
  cases hknown : w.plan.sizes.get? name with
  | some size => exact ⟨size, rfl, h.positive name size hknown⟩
  | none => exact ⟨w.config.defaultSize, rfl, h.defaultSize_pos⟩

/-- With sizes for a text there are three cases: one of them stands for no integer, all do and one
of the integers is below one, or all are positive. -/
theorem readText_given_cases (h : w.WellFormed) (hplan : Plan.ofText text = .ok plan)
    (hgiven : (given.entries.map Prod.fst).Nodup) :
    (∃ name value fault, plan.IsGiven given name value ∧ value.toInteger = .error fault ∧
      (w.readText text given).outcome = .error (.conversion fault) ∧
      (w.readText text given).workspace = w) ∨
    (∃ name value n error, plan.IsGiven given name value ∧ value.toInteger = .ok n ∧ n ≤ 0 ∧
      (∀ name value, plan.IsGiven given name value → ∃ n, value.toInteger = .ok n) ∧
      (w.readText text given).outcome = .ok (some (.setting error)) ∧
      (w.readText text given).workspace = w) ∨
    ∃ sized, w.sized plan given = .ok sized ∧
      ∀ name value, plan.IsGiven given name value → ∃ n, value.toInteger = .ok n ∧ 0 < n := by
  have hnamed := Plan.isNamed_ofText hplan
  rcases Plan.setCompleteSizes_cases hnamed (w.plan.sizeData.override given)
    (.int w.config.defaultSize) with
    ⟨fault, label, hsized, hlabel, hfault⟩ | ⟨name, n, hsized, hall, hlabel, hn, hle⟩ |
    ⟨sized, hsized, hall⟩
  · left
    obtain ⟨name, rfl⟩ := Plan.exists_name_of_mem_labels hnamed hlabel
    cases hvalue : given.get? name with
    | none =>
      obtain ⟨n, hn, -⟩ := sizeFor_of_not_given h hplan hgiven hvalue
      cases hn.symm.trans hfault
    | some value =>
      rw [sizeFor_of_given hgiven hvalue] at hfault
      refine ⟨name, value, fault, ⟨hlabel, hvalue⟩, hfault, ?_⟩
      simp only [readText, hplan, Workspace.sized, hsized, and_self]
  · right; left
    cases hvalue : given.get? name with
    | none =>
      obtain ⟨m, hm, hpos⟩ := sizeFor_of_not_given h hplan hgiven hvalue
      obtain rfl := Except.ok.inj (hm.symm.trans hn)
      omega
    | some value =>
      rw [sizeFor_of_given hgiven hvalue] at hn
      refine ⟨name, value, n, .indexSize name (.int n), ⟨hlabel, hvalue⟩, hn, hle, ?_, ?_⟩
      · rintro other value ⟨hother, hvalue⟩
        obtain ⟨m, hm⟩ := hall _ hother
        rw [sizeFor_of_given hgiven hvalue] at hm
        exact ⟨m, hm⟩
      · simp only [readText, hplan, Workspace.sized, hsized, and_self]
  · right; right
    refine ⟨sized, hsized, ?_⟩
    rintro name value ⟨hname, hvalue⟩
    obtain ⟨n, hn, hpos⟩ := hall _ hname
    rw [sizeFor_of_given hgiven hvalue] at hn
    exact ⟨n, hn, hpos⟩

/-- The sizes that come with a text are accepted exactly if they stand for positive integers. -/
theorem readText_eq_none_iff (h : w.WellFormed) (hplan : Plan.ofText text = .ok plan)
    (hgiven : (given.entries.map Prod.fst).Nodup)
    (hrange : ∀ sized, w.sized plan given = .ok sized → (w.replacePlan sized).NumbersInRange) :
    (w.readText text given).outcome = .ok none ↔
      ∀ name value, plan.IsGiven given name value → ∃ n, value.toInteger = .ok n ∧ 0 < n := by
  rcases readText_given_cases h hplan hgiven with
    ⟨name, value, fault, hgiven, hfault, houtcome, -⟩ |
    ⟨name, value, n, error, hgiven, hn, hle, -, houtcome, -⟩ | ⟨sized, hsized, hall⟩
  · refine ⟨fun hok => ?_, fun hall => ?_⟩
    · cases houtcome.symm.trans hok
    · obtain ⟨n, hn, -⟩ := hall name value hgiven
      cases hn.symm.trans hfault
  · refine ⟨fun hok => ?_, fun hall => ?_⟩
    · cases houtcome.symm.trans hok
    · obtain ⟨m, hm, hpos⟩ := hall name value hgiven
      obtain rfl := Except.ok.inj (hm.symm.trans hn)
      omega
  · refine ⟨fun _ => hall, fun _ => ?_⟩
    have hmeasured := (measured_eq_ok_iff _).mpr (hrange sized hsized)
    rw [(readText_of_sized hplan hsized).2, hmeasured]
    rfl

/-- Sizes that stand for integers, and not all for positive ones, are refused. -/
theorem readText_of_integers (h : w.WellFormed) (hplan : Plan.ofText text = .ok plan)
    (hgiven : (given.entries.map Prod.fst).Nodup)
    (hconvert : ∀ name value, plan.IsGiven given name value → ∃ n, value.toInteger = .ok n) :
    (∀ name value, plan.IsGiven given name value → ∃ n, value.toInteger = .ok n ∧ 0 < n) ∨
      (∃ error, (w.readText text given).outcome = .ok (some (.setting error))) ∧
        (w.readText text given).workspace = w := by
  rcases readText_given_cases h hplan hgiven with
    ⟨name, value, fault, hgiven, hfault, -⟩ | ⟨_, _, _, error, -, -, -, -, houtcome, hw⟩ |
    ⟨_, -, hall⟩
  · obtain ⟨n, hn⟩ := hconvert name value hgiven
    cases hn.symm.trans hfault
  · exact Or.inr ⟨⟨error, houtcome⟩, hw⟩
  · exact Or.inl hall

/-- A size that stands for no integer stops the step. -/
theorem readText_of_no_integer {fault : ConversionFault} (h : w.WellFormed)
    (hplan : Plan.ofText text = .ok plan) (hgiven : (given.entries.map Prod.fst).Nodup)
    (hname : plan.IsGiven given name value) (hfault : value.toInteger = .error fault) :
    (∃ fault, (w.readText text given).outcome = .error (.conversion fault)) ∧
      (w.readText text given).workspace = w := by
  rcases readText_given_cases h hplan hgiven with
    ⟨_, _, other, -, -, houtcome, hw⟩ | ⟨_, _, _, _, -, -, -, hall, -⟩ | ⟨_, -, hall⟩
  · exact ⟨⟨other, houtcome⟩, hw⟩
  · obtain ⟨n, hn⟩ := hall name value hname
    cases hn.symm.trans hfault
  · obtain ⟨n, hn, -⟩ := hall name value hname
    cases hn.symm.trans hfault

/-- After any steps, a text that is read with sizes, each key of which stands once, gets its plan
into the workspace exactly if all sizes that are given for its labels stand for positive integers,
as long as the numbers that follow are in range. If all of them stand for integers, it is refused
otherwise, and if one stands for none, the step stops; both change nothing. Sizes that are numbers
equal to integers are accepted exactly if entering them into a table accepts each. -/
theorem ReachedBy.readText_given (h : w.ReachedBy admits) (hplan : Plan.ofText text = .ok plan)
    (hgiven : (given.entries.map Prod.fst).Nodup)
    (hrange : ∀ sized, w.sized plan given = .ok sized → (w.replacePlan sized).NumbersInRange) :
    let step := w.readText text given
    (step.outcome = .ok none ↔
      ∀ name value, plan.IsGiven given name value → ∃ n, value.toInteger = .ok n ∧ 0 < n) ∧
    ((∀ name value, plan.IsGiven given name value → ∃ n, value.toInteger = .ok n) →
      step.outcome = .ok none ∨
        (∃ error, step.outcome = .ok (some (.setting error))) ∧ step.workspace = w) ∧
    ((∃ name value fault, plan.IsGiven given name value ∧ value.toInteger = .error fault) →
      (∃ fault, step.outcome = .error (.conversion fault)) ∧ step.workspace = w) ∧
    ((∀ name value, plan.IsGiven given name value → ∃ n, value.equalsInt n = true) →
      (step.outcome = .ok none ↔
        ∀ name value, plan.IsGiven given name value → ∃ n, Plan.sizeFrom name value = .ok n)) := by
  intro step
  have haccepted : step.outcome = .ok none ↔ _ :=
    readText_eq_none_iff h.wellFormed hplan hgiven hrange
  refine ⟨haccepted, fun hconvert => ?_, ?_, fun hnumbers => ?_⟩
  · exact (readText_of_integers h.wellFormed hplan hgiven hconvert).imp_left haccepted.mpr
  · rintro ⟨name, value, fault, hname, hfault⟩
    exact readText_of_no_integer h.wellFormed hplan hgiven hname hfault
  · rw [haccepted]
    refine forall_congr' fun name => forall_congr' fun value => forall_congr' fun hname => ?_
    obtain ⟨n, hequal⟩ := hnumbers name value hname
    exact (Plan.exists_sizeFrom_iff hequal).symm

/-- A size for the label of a text is entered, and one that is given beside it is not looked at. -/
theorem readText_given_beside : ∃ (w : Workspace) (plan : Plan),
    let given : Table Datum := ⟨[("i", .int 3), ("z", .null)]⟩
    w.ReachedBy (fun _ => True) ∧ Plan.ofText (some "[i]->[i]") = .ok plan ∧
      (w.readText (some "[i]->[i]") given).outcome = .ok none ∧
      (∀ name value, plan.IsGiven given name value → ∃ n, value.toInteger = .ok n ∧ 0 < n) := by
  let given : Table Datum := ⟨[("i", .int 3), ("z", .null)]⟩
  obtain ⟨w, hw, htest⟩ := exists_reachedBy (fun _ => True) {} none .empty
    (fun w => (w.readText (some "[i]->[i]") given).outcome.toOption.any Option.isNone)
    (by decide +kernel)
  obtain ⟨refusal, hok, hnone⟩ := exists_ok_of_any htest
  obtain rfl := Option.isNone_iff_eq_none.mp hnone
  obtain ⟨plan, hplan, -⟩ := exists_ok_of_any
    (show (Plan.ofText (some "[i]->[i]")).toOption.any (fun _ => true) = true by decide +kernel)
  have hrange : ∀ sized, w.sized plan given = .ok sized →
      (w.replacePlan sized).NumbersInRange := by
    intro sized hsized
    obtain ⟨-, houtcome⟩ := readText_of_sized hplan hsized
    obtain ⟨_, hmeasured, -⟩ := except_map_eq_ok.mp (houtcome.symm.trans hok)
    exact (measured_eq_ok_iff _).mp hmeasured
  have hgiven : (given.entries.map Prod.fst).Nodup := by decide
  obtain ⟨hiff, -⟩ := hw.readText_given hplan hgiven hrange
  exact ⟨w, plan, hw, hplan, hok, hiff.mp hok⟩

/-- A text and a fraction are accepted as sizes that come with an expression, though not for the
table, and nothing in the place of a size stops the step. -/
theorem readText_given_fails : ∃ w : Workspace, w.ReachedBy (fun _ => True) ∧
    let read := fun size => (w.readText (some "[i]->[i]") ⟨[("i", size)]⟩).outcome
    let fraction : Datum := .float (.finite false (5 * Binary64.one / 2))
    (read (.text "3") = .ok none ∧ ¬∃ n, Plan.sizeFrom "i" (.text "3") = .ok n) ∧
      (read fraction = .ok none ∧ ¬∃ n, Plan.sizeFrom "i" fraction = .ok n) ∧
      ∃ fault, read .null = .error fault := by
  let fraction : Datum := .float (.finite false (5 * Binary64.one / 2))
  obtain ⟨w, hw, htest⟩ := exists_reachedBy (fun _ => True) {} none .empty
    (fun w =>
      let read := fun size => (w.readText (some "[i]->[i]") ⟨[("i", size)]⟩).outcome.toOption
      (read (.text "3")).any Option.isNone && (read fraction).any Option.isNone &&
        !(read .null).isSome)
    (by decide +kernel)
  simp only [Bool.and_eq_true, Bool.not_eq_true'] at htest
  obtain ⟨⟨htext, hfraction⟩, hnull⟩ := htest
  have haccepted : ∀ {outcome : Except Fault (Option Refusal)},
      outcome.toOption.any Option.isNone = true → outcome = .ok none := by
    intro outcome hany
    obtain ⟨refusal, hok, hnone⟩ := exists_ok_of_any hany
    rw [hok, Option.isNone_iff_eq_none.mp hnone]
  have hrejected : ∀ {size : Datum}, (Plan.sizeFrom "i" size).toOption.isSome = false →
      ¬∃ n, Plan.sizeFrom "i" size = .ok n := by
    rintro size hnone ⟨n, hn⟩
    rw [hn] at hnone
    cases hnone
  refine ⟨w, hw, ⟨haccepted htext, hrejected (by decide +kernel)⟩,
    ⟨haccepted hfraction, hrejected (by decide +kernel)⟩, ?_⟩
  cases houtcome : (w.readText (some "[i]->[i]") ⟨[("i", .null)]⟩).outcome with
  | error fault => exact ⟨fault, houtcome⟩
  | ok refusal =>
    rw [houtcome] at hnull
    cases hnull

end Workspace

end Contraction
