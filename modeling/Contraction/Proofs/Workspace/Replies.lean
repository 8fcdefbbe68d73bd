import Contraction.Proofs.Plan.Completion
import Contraction.Proofs.Workspace.PlanNumbers
import Contraction.Proofs.Workspace.WellFormed

/-!
# When a workspace replies

Reading a text, entering sizes and changing settings are replied to, with a refusal or without one,
unless they stop, and there are two ways for that. A value may be no integer where one is asked for
(`Blocked`), and then nothing has happened yet; or the numbers that follow from the new plan, sizes
or settings may be out of the range of the format (`NumbersInRange`), and then these have already
taken the place of the old ones (`perform_reply`).

* `NumbersInRange`, `measured_eq_ok_iff` — when a measurement comes to its end
* `Enters` — what an action puts in place before it measures
* `Blocked` — when an action stops before that
-/

namespace Contraction

namespace Settings

variable {settings : Settings} {given : Datum} {refuse : Datum → SettingError}

theorem positive_eq_outOfRange :
    positive given refuse = .error (.conversion .outOfRange) ↔
      ∃ sign, given = .float (.infinite sign) := by
  rw [← Datum.toInteger_eq_outOfRange, positive]
  cases given.toInteger with
  | error fault => simp
  | ok n =>
    dsimp only
    split <;> simp

/-- A change of settings fails only at a name that is not known. -/
theorem change_eq_error {changes : List (String × Datum)} {fault : SettingsFault}
    (h : settings.change changes = .error fault) : ∃ name, fault = .unknown name := by
  induction changes generalizing settings with
  | nil => cases h
  | cons entry changes ih =>
    obtain ⟨name, value⟩ := entry
    rw [change, List.foldlM_cons] at h
    rcases except_bind_eq_error.mp h with hset | ⟨next, -, hrest⟩
    · cases hs : settings.set? name value with
      | some _ =>
        simp only [hs] at hset
        cases hset
      | none =>
        simp only [hs] at hset
        exact ⟨name, (Except.error.inj hset).symm⟩
    · exact ih hrest

/-- A check stops at the first of the two numbers that is infinite, unless one has been refused. -/
theorem check_eq_outOfRange : settings.check = .error (.conversion .outOfRange) ↔
    (∃ sign, settings.elementBytes = .float (.infinite sign)) ∨
      (∃ n, positive settings.elementBytes .elementBytes = .ok n) ∧
        ∃ sign, settings.defaultSize = .float (.infinite sign) := by
  rw [check, except_bind_eq_error, positive_eq_outOfRange]
  refine or_congr_right ⟨?_, ?_⟩
  · rintro ⟨n, hn, hrest⟩
    rcases except_bind_eq_error.mp hrest with hdefault | ⟨m, -, hunusable⟩
    · exact ⟨⟨n, hn⟩, positive_eq_outOfRange.mp hdefault⟩
    · -- a unit that is not known is a fault of another kind
      split at hunusable <;> cases hunusable
  · rintro ⟨⟨n, hn⟩, hdefault⟩
    exact ⟨n, hn, except_bind_eq_error.mpr (Or.inl (positive_eq_outOfRange.mpr hdefault))⟩

end Settings

namespace Plan

variable {p : Plan}

/-- A plan is written if no label is missing and no right child stands alone. -/
theorem exists_text (hnamed : p.root.IsNamed) (hleft : p.root.LeftFirst) :
    ∃ written, p.text = .ok written := by
  rw [text]
  cases hroot : p.root with
  | absent => exact ⟨"", rfl⟩
  | node e l r =>
    rw [hroot] at hnamed hleft
    obtain ⟨x, hx⟩ := hnamed.exists_expression hleft (by simp)
    refine ⟨x.text, ?_⟩
    rw [textOf, hx]
    · rfl
    · simp

end Plan

namespace Workspace

variable {w next : Workspace} {action : Action}

/-! ## Measuring -/

/-- All numbers that follow from the plan and the configuration are in the range of the format. -/
def NumbersInRange (w : Workspace) : Prop :=
  InRange w.config.elementBytes
    (w.plan.root.figures (w.config.sizeOf w.plan.sizes) w.config.elementBytes)

theorem measured_eq_ok_iff (w : Workspace) : w.measured.outcome = .ok () ↔ w.NumbersInRange := by
  have hmeasure : w.plan.root.measureUnder w.plan.sizeData w.config =
      w.plan.root.measureBy (fun label => .ok (w.config.sizeOf w.plan.sizes label))
        w.config.elementBytes := by
    rw [Branch.measureUnder_eq, Plan.sizeData, Sizing.ofTable_int]
  constructor
  · intro h
    obtain ⟨totals, houtcome, -⟩ := measured_eq_ok h
    rw [hmeasure] at houtcome
    exact Branch.inRange_of_measured houtcome
  · intro h
    have houtcome := (Branch.measureBy_of_inRange h).1
    rw [← hmeasure] at houtcome
    rw [measured]
    dsimp only
    rw [houtcome]

/-! ## What is entered, and what stops before -/

/-- What an action puts in place before it measures: the plan of a text with its sizes, the sizes
that are given, or other settings. -/
inductive Enters (w : Workspace) : Action → Workspace → Prop where
  | read {text : Option String} {given : Table Datum} {plan sized : Plan}
      (h : Plan.ofText text = .ok plan) (hs : w.sized plan given = .ok sized) :
      Enters w (.read text given) (w.replacePlan sized)
  | resize {given : Table Datum} {plan : Plan} (h : w.plan.setSizes given = .ok plan) :
      Enters w (.resize given) { w with plan }
  | configure {changes : Table Datum} {settings : Settings} {config : Config}
      (hname : changes.get? reservedName = none)
      (h : (Settings.ofConfig w.config).change changes.entries = .ok settings)
      (hs : settings.check = .ok config) : Enters w (.configure changes) { w with config }

/-- An action stops before it has put anything in place. -/
inductive Blocked (w : Workspace) : Action → Prop where
  /-- The size of a label of the text stands for no integer. -/
  | read {text : Option String} {given : Table Datum} {plan : Plan} {name : String} {value : Datum}
      {fault : ConversionFault} (h : Plan.ofText text = .ok plan) (hname : some name ∈ plan.labels)
      (hvalue : (w.plan.sizeData.override given).get? name = some value)
      (hfault : value.toInteger = .error fault) : Blocked w (.read text given)
  /-- A size is infinite, and all before it are accepted. -/
  | resize {given : Table Datum} {before after : List (String × Datum)} {name : String}
      {sign : Bool} (h : given.entries = before ++ (name, .float (.infinite sign)) :: after)
      (hbefore : ∀ entry ∈ before, ∃ n, Plan.sizeFrom entry.1 entry.2 = .ok n) :
      Blocked w (.resize given)
  /-- A setting has the name that none can have. -/
  | reserved {changes : Table Datum} {value : Datum}
      (h : changes.get? reservedName = some value) : Blocked w (.configure changes)
  /-- The bytes of an element are infinite. -/
  | elementBytes {changes : Table Datum} {settings : Settings} {sign : Bool}
      (h : (Settings.ofConfig w.config).change changes.entries = .ok settings)
      (hs : settings.elementBytes = .float (.infinite sign)) : Blocked w (.configure changes)
  /-- The default size is infinite, and the bytes of an element are accepted. -/
  | defaultSize {changes : Table Datum} {settings : Settings} {sign : Bool} {n : Int}
      (h : (Settings.ofConfig w.config).change changes.entries = .ok settings)
      (hn : Settings.positive settings.elementBytes .elementBytes = .ok n)
      (hs : settings.defaultSize = .float (.infinite sign)) : Blocked w (.configure changes)

/-- What comes of an action: it is refused or stops with everything as it was, or what it puts in
place is measured, and there is a reply if the measurement comes to its end. -/
inductive Replies (w : Workspace) (action : Action) (step : Step (Option Refusal)) : Prop where
  | refused {refusal : Refusal} (h : step.outcome = .ok (some refusal)) (hw : step.workspace = w)
      (hb : ¬w.Blocked action) (hn : ∀ next, ¬w.Enters action next)
  | blocked {fault : Fault} (h : step.outcome = .error fault) (hw : step.workspace = w)
      (hb : w.Blocked action) (hn : ∀ next, ¬w.Enters action next)
  | entered {next : Workspace} (hn : w.Enters action next) (hb : ¬w.Blocked action)
      (hw : step.workspace = next.measured.workspace)
      (h : step.outcome = next.measured.outcome.map fun _ => none)

/-! ## Reading -/

/-- The size of a label fails only where the value that is known for it stands for no integer. -/
theorem sizeFor_eq_error {p : Plan} {known : Table Datum} {default : Int} {name : String}
    {fault : ConversionFault} : p.sizeFor known (.int default) (some name) = .error fault ↔
      ∃ value, known.get? name = some value ∧ value.toInteger = .error fault := by
  rw [Plan.sizeFor, Option.bind_some]
  cases known.get? name with
  | some value => simp
  | none => cases p.sizeOf? (some name) <;> simp [Datum.toInteger]

/-- Reading a text whose labels get their sizes comes down to a measurement. -/
theorem readText_of_sized {text : Option String} {given : Table Datum} {plan sized : Plan}
    (hplan : Plan.ofText text = .ok plan) (hsized : w.sized plan given = .ok sized) :
    (w.readText text given).workspace = (w.replacePlan sized).measured.workspace ∧
      (w.readText text given).outcome =
        (w.replacePlan sized).measured.outcome.map fun _ => none := by
  have hnamed : sized.root.IsNamed :=
    (Plan.setCompleteSizes_isSized hsized (Plan.isNamed_ofText hplan)).isNamed
  have hleft : sized.root.LeftFirst := by
    obtain ⟨sizes, -, hset⟩ := except_bind_eq_ok.mp hsized
    exact ((Plan.isNumbered_ofText hplan).setSizes hset).proper.leftFirst
  -- the new plan is told of, and it can be written also where the measurement has stopped
  obtain ⟨written, hwritten⟩ :
      ∃ written, (w.replacePlan sized).measured.workspace.text = .ok written := by
    obtain ⟨root, totals, hroot, hmeasured⟩ := (w.replacePlan sized).measured_keeps
    rw [hmeasured]
    exact Plan.exists_text (p := { sized with root })
      (hnamed.of_tensorsFrom (Branch.tensorsFrom_of_withoutMeasures_eq hroot))
      ((Branch.leftFirst_congr hroot).mpr hleft)
  rw [readText, hplan]
  dsimp only
  rw [hsized]
  dsimp only
  rw [hwritten]
  cases (w.replacePlan sized).measured.outcome <;> exact ⟨rfl, rfl⟩

/-- Reading stops before anything is in place where some label has no size that is an integer. -/
theorem blocked_read_iff {text : Option String} {given : Table Datum} {plan : Plan}
    (hplan : Plan.ofText text = .ok plan) :
    w.Blocked (.read text given) ↔ ∃ label ∈ plan.labels, ∃ fault,
      plan.sizeFor (w.plan.sizeData.override given) (.int w.config.defaultSize) label =
        .error fault := by
  constructor
  · rintro (⟨h, hname, hvalue, hfault⟩)
    obtain rfl := Except.ok.inj (hplan.symm.trans h)
    exact ⟨_, hname, _, sizeFor_eq_error.mpr ⟨_, hvalue, hfault⟩⟩
  · rintro ⟨label, hlabel, fault, hfault⟩
    obtain ⟨name, rfl⟩ := Plan.exists_name_of_mem_labels (Plan.isNamed_ofText hplan) hlabel
    obtain ⟨value, hvalue, hvfault⟩ := sizeFor_eq_error.mp hfault
    exact .read hplan hlabel hvalue hvfault

theorem not_enters_read {text : Option String} {given : Table Datum} {plan : Plan} {fault : Fault}
    (hplan : Plan.ofText text = .ok plan) (hsized : w.sized plan given = .error fault) :
    ∀ next, ¬w.Enters (.read text given) next := by
  rintro _ (⟨h, hs⟩)
  obtain rfl := Except.ok.inj (hplan.symm.trans h)
  cases hsized.symm.trans hs

theorem readText_replies (w : Workspace) (text : Option String) (given : Table Datum) :
    w.Replies (.read text given) (w.readText text given) := by
  cases hplan : Plan.ofText text with
  | error misreading =>
    have hstep : w.readText text given = ⟨w, .ok (some (.text misreading)),
        misreading.notices ++ [.unreadText text misreading]⟩ := by
      rw [readText, hplan]
    refine .refused (by rw [hstep]) (by rw [hstep]) ?_ ?_
    · rintro (⟨h, -, -, -⟩)
      cases hplan.symm.trans h
    · rintro _ (⟨h, -⟩)
      cases hplan.symm.trans h
  | ok plan =>
    rcases Plan.setCompleteSizes_cases (Plan.isNamed_ofText hplan)
      (w.plan.sizeData.override given) (.int w.config.defaultSize) with
      ⟨fault, label, hsized, hlabel, hfault⟩ | ⟨name, n, hsized, hall, -⟩ | ⟨sized, hsized, hall⟩
    · have hstep : w.readText text given = ⟨w, .error (.conversion fault), []⟩ := by
        simp only [readText, hplan, Workspace.sized, hsized]
      exact .blocked (by rw [hstep]) (by rw [hstep])
        ((blocked_read_iff hplan).mpr ⟨label, hlabel, fault, hfault⟩)
        (not_enters_read hplan hsized)
    · have hstep : w.readText text given =
          ⟨w, .ok (some (.setting (.indexSize name (.int n)))),
            [.unusableSizes text (.indexSize name (.int n))]⟩ := by
        simp only [readText, hplan, Workspace.sized, hsized]
      refine .refused (by rw [hstep]) (by rw [hstep]) (fun hb => ?_) (not_enters_read hplan hsized)
      obtain ⟨label, hlabel, fault, hfault⟩ := (blocked_read_iff hplan).mp hb
      obtain ⟨m, hm⟩ := hall label hlabel
      cases hm.symm.trans hfault
    · obtain ⟨hworkspace, houtcome⟩ := readText_of_sized hplan hsized
      refine .entered (.read hplan hsized) (fun hb => ?_) hworkspace houtcome
      obtain ⟨label, hlabel, fault, hfault⟩ := (blocked_read_iff hplan).mp hb
      obtain ⟨m, hm, -⟩ := hall label hlabel
      cases hm.symm.trans hfault

/-! ## Entering sizes -/

theorem blocked_resize_iff {given : Table Datum} :
    w.Blocked (.resize given) ↔ w.plan.setSizes given = .error (.conversion .outOfRange) := by
  rw [Plan.setSizes_eq_error]
  constructor
  · rintro (_ | ⟨hentries, hbefore⟩)
    exact ⟨_, _, _, _, hentries, hbefore, rfl⟩
  · rintro ⟨before, name, value, after, hentries, hbefore, hfault⟩
    rcases Plan.sizeFrom_eq_error hfault with ⟨-, sign, rfl⟩ | ⟨hsetting, -⟩
    · exact .resize hentries hbefore
    · cases hsetting

theorem setSizes_replies (w : Workspace) (given : Table Datum) :
    w.Replies (.resize given) (w.setSizes given) := by
  cases hset : w.plan.setSizes given with
  | ok plan =>
    have hstep : w.setSizes given =
        let step := { w with plan }.measured
        ⟨step.workspace, step.outcome.map fun _ => none, step.notices⟩ := by
      rw [setSizes, hset]
    rw [hstep]
    refine .entered (.resize hset) (fun hb => ?_) rfl rfl
    cases hset.symm.trans (blocked_resize_iff.mp hb)
  | error fault =>
    have hno : ∀ next, ¬w.Enters (.resize given) next := by
      rintro _ (_ | h)
      cases hset.symm.trans h
    obtain ⟨-, name, value, -, -, -, hfault⟩ := Plan.setSizes_eq_error.mp hset
    rcases Plan.sizeFrom_eq_error hfault with ⟨rfl, -⟩ | ⟨rfl, -⟩
    · have hstep : w.setSizes given = ⟨w, .error (.conversion .outOfRange), []⟩ := by
        rw [setSizes, hset]
      exact .blocked (by rw [hstep]) (by rw [hstep]) (blocked_resize_iff.mpr hset) hno
    · have hstep : w.setSizes given = ⟨w, .ok (some (.setting (.indexSize name value))),
          [.rejectedSizes given (.indexSize name value)]⟩ := by
        rw [setSizes, hset]
      refine .refused (by rw [hstep]) (by rw [hstep]) (fun hb => ?_) hno
      cases hset.symm.trans (blocked_resize_iff.mp hb)

/-! ## Changing settings -/

theorem settingRefusal?_eq_none {fault : SettingsFault} :
    settingRefusal? fault = none ↔ fault = .conversion .outOfRange := by
  unfold settingRefusal?
  split <;> simp_all

/-- Apart from the reserved name, settings stop where one of the two numbers is infinite. -/
theorem blocked_configure_iff {changes : Table Datum} (hname : changes.get? reservedName = none) :
    w.Blocked (.configure changes) ↔
      (Settings.ofConfig w.config).change changes.entries >>= Settings.check =
        .error (.conversion .outOfRange) := by
  rw [except_bind_eq_error]
  constructor
  · rintro (_ | _ | ⟨hvalue⟩ | ⟨hsettings, hbytes⟩ | ⟨hsettings, hn, hdefault⟩)
    · cases hname.symm.trans hvalue
    · exact Or.inr ⟨_, hsettings, Settings.check_eq_outOfRange.mpr (Or.inl ⟨_, hbytes⟩)⟩
    · exact Or.inr
        ⟨_, hsettings, Settings.check_eq_outOfRange.mpr (Or.inr ⟨⟨_, hn⟩, _, hdefault⟩)⟩
  · rintro (hunknown | ⟨settings, hsettings, hcheck⟩)
    · obtain ⟨name, hfault⟩ := Settings.change_eq_error hunknown
      cases hfault
    · rcases Settings.check_eq_outOfRange.mp hcheck with ⟨sign, hbytes⟩ |
        ⟨⟨n, hn⟩, sign, hdefault⟩
      · exact .elementBytes hsettings hbytes
      · exact .defaultSize hsettings hn hdefault

theorem changeSettings_replies (w : Workspace) (changes : Table Datum) :
    w.Replies (.configure changes) (w.changeSettings changes) := by
  unfold changeSettings
  split
  · next hreserved =>
    obtain ⟨value, hvalue⟩ := Option.isSome_iff_exists.mp hreserved
    refine .blocked rfl rfl (.reserved hvalue) ?_
    rintro _ (_ | _ | ⟨hnone, -, -⟩)
    cases hvalue.symm.trans hnone
  · next hfree =>
    have hname : changes.get? reservedName = none := Option.not_isSome_iff_eq_none.mp hfree
    split
    · next fault hfault =>
      have hno : ∀ next, ¬w.Enters (.configure changes) next := by
        rintro _ (_ | _ | ⟨-, hsettings, hcheck⟩)
        cases hfault.symm.trans (except_bind_eq_ok.mpr ⟨_, hsettings, hcheck⟩)
      split
      · next hrefusal =>
        obtain rfl := settingRefusal?_eq_none.mp hrefusal
        exact .blocked rfl rfl ((blocked_configure_iff hname).mpr hfault) hno
      · next error hrefusal =>
        refine .refused rfl rfl (fun hb => ?_) hno
        obtain rfl := Except.error.inj (hfault.symm.trans ((blocked_configure_iff hname).mp hb))
        cases hrefusal
    · next config hconfig =>
      obtain ⟨settings, hsettings, hcheck⟩ := except_bind_eq_ok.mp hconfig
      refine .entered (.configure hname hsettings hcheck) (fun hb => ?_) rfl rfl
      cases hconfig.symm.trans ((blocked_configure_iff hname).mp hb)

/-! ## Replies -/

theorem Enters.unique {other : Workspace} (h : w.Enters action next)
    (h' : w.Enters action other) : next = other := by
  cases h with
  | read hread hs =>
    cases h' with
    | read hread' hs' =>
      obtain rfl := Except.ok.inj (hread.symm.trans hread')
      rw [Except.ok.inj (hs.symm.trans hs')]
  | resize hset =>
    cases h' with
    | resize hset' => rw [Except.ok.inj (hset.symm.trans hset')]
  | configure hname hchange hs =>
    cases h' with
    | configure hname' hchange' hs' =>
      obtain rfl := Except.ok.inj (hchange.symm.trans hchange')
      rw [Except.ok.inj (hs.symm.trans hs')]

namespace Replies

variable {step : Step (Option Refusal)}

/-- A measurement leads to a reply, and to no refusal, if the numbers are in range. -/
theorem outcome_of_measured {refusal : Option Refusal} :
    (next.measured.outcome.map fun _ => none) = .ok refusal ↔
      next.NumbersInRange ∧ refusal = none := by
  rw [except_map_eq_ok, ← measured_eq_ok_iff]
  constructor
  · rintro ⟨_, hmeasured, rfl⟩
    exact ⟨hmeasured, rfl⟩
  · rintro ⟨hmeasured, rfl⟩
    exact ⟨(), hmeasured, rfl⟩

theorem exists_reply_iff (h : w.Replies action step) :
    (∃ refusal, step.outcome = .ok refusal) ↔
      ¬w.Blocked action ∧ ∀ next, w.Enters action next → next.NumbersInRange := by
  cases h with
  | refused h hw hb hn =>
    exact ⟨fun _ => ⟨hb, fun next hnext => absurd hnext (hn next)⟩, fun _ => ⟨_, h⟩⟩
  | blocked h hw hb hn =>
    refine ⟨?_, fun hand => absurd hb hand.1⟩
    rintro ⟨refusal, hok⟩
    cases h.symm.trans hok
  | @entered next hn hb hw h =>
    rw [h]
    constructor
    · rintro ⟨refusal, hok⟩
      refine ⟨hb, fun other hother => ?_⟩
      rw [← hn.unique hother]
      exact (outcome_of_measured.mp hok).1
    · rintro ⟨-, hrange⟩
      exact ⟨none, outcome_of_measured.mpr ⟨hrange next hn, rfl⟩⟩

theorem workspace_of_refusal {refusal : Refusal} (h : w.Replies action step)
    (hok : step.outcome = .ok (some refusal)) : step.workspace = w := by
  cases h with
  | refused h hw hb hn => exact hw
  | blocked h hw hb hn => exact hw
  | entered hn hb hw h => cases (outcome_of_measured.mp (h.symm.trans hok)).2

theorem workspace_of_blocked (h : w.Replies action step) (hblocked : w.Blocked action) :
    step.workspace = w := by
  cases h with
  | refused h hw hb hn => exact hw
  | blocked h hw hb hn => exact hw
  | entered hn hb hw h => exact absurd hblocked hb

theorem of_enters (h : w.Replies action step) (hnext : w.Enters action next) :
    step.workspace = next.measured.workspace ∧
      (step.outcome = .ok none ↔ next.NumbersInRange) := by
  cases h with
  | refused h hw hb hn => exact absurd hnext (hn next)
  | blocked h hw hb hn => exact absurd hnext (hn next)
  | entered hn hb hw h =>
    obtain rfl := hn.unique hnext
    rw [h, outcome_of_measured]
    exact ⟨hw, and_iff_left rfl⟩

end Replies

theorem perform_replies (w : Workspace) (h : action.isEdit = false) :
    ∃ step, w.Replies action step ∧ w.perform action = step.map .reply := by
  cases action with
  | read text given => exact ⟨_, w.readText_replies text given, rfl⟩
  | resize given => exact ⟨_, w.setSizes_replies given, rfl⟩
  | configure changes => exact ⟨_, w.changeSettings_replies changes, rfl⟩
  | swap id => cases h
  | wrap id => cases h
  | remove id => cases h
  | rename input => cases h

/-- Reading a text, entering sizes and changing settings are replied to exactly if they are not
blocked and the numbers that follow from what they put in place are in range. What is refused or
blocked leaves everything as it was. What is put in place stays, in whatever range the numbers are:
where they are out of range, the step stops without a reply all the same. -/
theorem perform_reply (w : Workspace) {action : Action} (h : action.isEdit = false) :
    let step := w.perform action
    ((∃ refusal, step.outcome = .ok (.reply refusal)) ↔
      ¬w.Blocked action ∧ ∀ next, w.Enters action next → next.NumbersInRange) ∧
    (∀ refusal, step.outcome = .ok (.reply (some refusal)) → step.workspace = w) ∧
    (w.Blocked action → step.workspace = w) ∧
    ∀ next, w.Enters action next → step.workspace = next.measured.workspace ∧
      (step.outcome = .ok (.reply none) ↔ next.NumbersInRange) := by
  intro step
  obtain ⟨plain, hreplies, hstep⟩ := w.perform_replies h
  have hworkspace : step.workspace = plain.workspace := congrArg Step.workspace hstep
  have hreply : ∀ refusal, step.outcome = .ok (.reply refusal) ↔ plain.outcome = .ok refusal := by
    intro refusal
    have houtcome : step.outcome = plain.outcome.map .reply := congrArg Step.outcome hstep
    rw [houtcome, except_map_eq_ok]
    constructor
    · rintro ⟨other, hother, heq⟩
      obtain rfl := Answer.reply.inj heq
      exact hother
    · intro hok
      exact ⟨refusal, hok, rfl⟩
  simp only [hreply, hworkspace]
  exact ⟨hreplies.exists_reply_iff, fun _ => hreplies.workspace_of_refusal,
    hreplies.workspace_of_blocked, fun _ => hreplies.of_enters⟩

/-- A size that is infinite is not replied to and changes nothing; one that is not a number is
refused. -/
theorem perform_reply_infinite :
    let w : Workspace := {}
    let infinite : Action := .resize ⟨[("i", .float (.infinite false))]⟩
    let undefined : Action := .resize ⟨[("i", .float .nan)]⟩
    (¬∃ refusal, (w.perform infinite).outcome = .ok (.reply refusal)) ∧
      (w.perform infinite).workspace = w ∧
      (∃ refusal, (w.perform undefined).outcome = .ok (.reply (some refusal))) ∧
      (w.perform undefined).workspace = w := by
  intro w infinite undefined
  obtain ⟨hreply, -, hunchanged, -⟩ := perform_reply w (show infinite.isEdit = false from rfl)
  have hblocked : w.Blocked infinite := .resize rfl (List.forall_mem_nil _)
  have hrefused : (w.perform undefined).outcome =
      .ok (.reply (some (.setting (.indexSize "i" (.float .nan))))) := rfl
  refine ⟨fun hreplied => (hreply.mp hreplied).1 hblocked, hunchanged hblocked, ⟨_, hrefused⟩, ?_⟩
  exact (perform_reply w (show undefined.isEdit = false from rfl)).2.1 _ hrefused

/-- A size that is too large for the format takes its place in the table, and there is no reply. -/
theorem perform_reply_fails : ∃ w : Workspace, w.ReachedBy (fun _ => True) ∧
    let resized := w.perform (.resize ⟨[("i", .int (10 ^ 400 : Nat))]⟩)
    w.plan.sizes.get? "i" = some 2 ∧
      (∃ fault, resized.outcome = .error fault) ∧
      resized.workspace.plan.sizes.get? "i" = some (10 ^ 400 : Nat) ∧
      resized.workspace.totals = w.totals := by
  obtain ⟨w, hw, htest⟩ := exists_reachedBy (fun _ => True) {} (some "[i]->[i]") .empty
    (fun w =>
      let resized := w.perform (.resize ⟨[("i", .int (10 ^ 400 : Nat))]⟩)
      decide (w.plan.sizes.get? "i" = some 2) && !resized.outcome.toOption.isSome &&
        decide (resized.workspace.plan.sizes.get? "i" = some (10 ^ 400 : Nat)) &&
        decide (resized.workspace.totals = w.totals))
    (by decide +kernel)
  simp only [Bool.and_eq_true, decide_eq_true_eq, Bool.not_eq_true'] at htest
  obtain ⟨⟨⟨hbefore, hstopped⟩, hafter⟩, htotals⟩ := htest
  refine ⟨w, hw, hbefore, ?_, hafter, htotals⟩
  cases houtcome : (w.perform (.resize ⟨[("i", .int (10 ^ 400 : Nat))]⟩)).outcome with
  | error fault => exact ⟨fault, rfl⟩
  | ok answer =>
    rw [houtcome] at hstopped
    cases hstopped

end Workspace

end Contraction
