import Contraction.Proofs.Plan.Sizes

/-!
# A size for every label

A plan that is new gets a size for each of its labels: the one that is given, one that is known, or
the default. The integers are taken out of the values first and checked afterwards, so there are two
ways for this to fail and one to succeed (`setCompleteSizes_cases`), while entering the values at
once checks that each of them is equal to a positive integer (`sizeFrom_eq_ok`).
-/

namespace Contraction

open Number

/-! ## Values and integers -/

namespace Datum

variable {value : Datum} {n : Int}

/-- Only an infinite number is out of range as an integer. -/
theorem toInteger_eq_outOfRange :
    value.toInteger = .error .outOfRange ↔ ∃ sign, value = .float (.infinite sign) := by
  constructor
  · intro h
    cases value with
    | float x =>
      cases x with
      | finite s q => cases h
      | infinite sign => exact ⟨sign, rfl⟩
      | nan => cases h
    | text s =>
      rw [toInteger] at h
      split at h <;> cases h
    | null => cases h
    | bool b => cases h
    | int m => cases h
    | list items => cases h
    | mapping entries => cases h
  · rintro ⟨sign, rfl⟩
    rfl

/-- A number that is equal to an integer stands for it. -/
theorem toInteger_of_equalsInt (h : value.equalsInt n = true) : value.toInteger = .ok n := by
  cases value with
  | bool b => exact congrArg Except.ok (eq_of_beq h).symm
  | int m => exact congrArg Except.ok (eq_of_beq h)
  | float x =>
    cases x with
    | finite s q =>
      have hone : (0 : Int) < Binary64.one := by decide +kernel
      have hsigned : Binary64.signedQuanta s q = n * Binary64.one := eq_of_beq h
      refine congrArg Except.ok ?_
      cases s with
      | false =>
        have hq : (q : Int) = n * Binary64.one := hsigned
        show ((q / Binary64.one : Nat) : Int) = n
        rw [Int.natCast_ediv, hq, Int.mul_ediv_cancel n (Int.ne_of_gt hone)]
      | true =>
        have hq : (q : Int) = -n * Binary64.one := by
          have hneg : -(q : Int) = n * Binary64.one := hsigned
          rw [Int.neg_mul, ← hneg, Int.neg_neg]
        show -((q / Binary64.one : Nat) : Int) = n
        rw [Int.natCast_ediv, hq, Int.mul_ediv_cancel (-n) (Int.ne_of_gt hone), Int.neg_neg]
    | infinite sign => cases h
    | nan => cases h
  | null => cases h
  | text s => cases h
  | list items => cases h
  | mapping entries => cases h

end Datum

namespace Plan

variable {p : Plan} {given : Table Datum} {default : Datum} {name : String} {value : Datum}
  {n : Int}

/-! ## Checking sizes -/

/-- A size that is given is accepted if it is a number equal to a positive integer. -/
theorem sizeFrom_eq_ok :
    sizeFrom name value = .ok n ↔ 0 < n ∧ value.equalsInt n = true := by
  constructor
  · intro h
    have hpos := sizeFrom_pos h
    rw [sizeFrom] at h
    split at h
    · cases h
    · cases h
    · split at h
      · cases h
      · next hequal =>
        obtain rfl := Except.ok.inj h
        simp only [Bool.or_eq_true, not_or, Bool.not_eq_true', Bool.not_eq_false] at hequal
        exact ⟨hpos, hequal.2⟩
  · rintro ⟨hpos, hequal⟩
    have hnot : ¬n ≤ 0 := by omega
    rw [sizeFrom, Datum.toInteger_of_equalsInt hequal]
    simp [hequal, hnot]

/-- For a number that is equal to an integer it is the same whether the integer is checked or the
number. -/
theorem exists_sizeFrom_iff (h : value.equalsInt n = true) :
    (∃ m, sizeFrom name value = .ok m) ↔ ∃ m, value.toInteger = .ok m ∧ 0 < m := by
  constructor
  · rintro ⟨m, hm⟩
    obtain ⟨hpos, hequal⟩ := sizeFrom_eq_ok.mp hm
    exact ⟨m, Datum.toInteger_of_equalsInt hequal, hpos⟩
  · rintro ⟨m, hm, hpos⟩
    obtain rfl := Except.ok.inj ((Datum.toInteger_of_equalsInt h).symm.trans hm)
    exact ⟨n, sizeFrom_eq_ok.mpr ⟨hpos, h⟩⟩

/-- A size that is not accepted is refused, and only an infinite one is not even that. -/
theorem sizeFrom_eq_error {fault : Fault} (h : sizeFrom name value = .error fault) :
    (fault = .conversion .outOfRange ∧ ∃ sign, value = .float (.infinite sign)) ∨
      fault = .setting (.indexSize name value) ∧ ∀ sign, value ≠ .float (.infinite sign) := by
  have hinfinite : value.toInteger = .error .outOfRange ↔ _ := Datum.toInteger_eq_outOfRange
  rw [sizeFrom] at h
  split at h
  · next hrange => exact Or.inl ⟨(Except.error.inj h).symm, hinfinite.mp hrange⟩
  · next reason hother hreason =>
    refine Or.inr ⟨(Except.error.inj h).symm, ?_⟩
    rintro sign rfl
    exact hother (Except.error.inj hreason).symm
  · next m hm =>
    split at h
    · refine Or.inr ⟨(Except.error.inj h).symm, ?_⟩
      rintro sign rfl
      cases hm
    · cases h

/-- An integer that is not accepted is below one. -/
theorem sizeFrom_int_eq_error {fault : Fault} (h : sizeFrom name (.int n) = .error fault) :
    n ≤ 0 ∧ fault = .setting (.indexSize name (.int n)) := by
  rcases sizeFrom_eq_error h with ⟨-, sign, hsign⟩ | ⟨hfault, -⟩
  · cases hsign
  · refine ⟨?_, hfault⟩
    by_cases hpos : 0 < n
    · have haccepted : sizeFrom name (.int n) = .ok n :=
        sizeFrom_eq_ok.mpr ⟨hpos, beq_self_eq_true n⟩
      cases haccepted.symm.trans h
    · omega

/-! ## Entering sizes -/

/-- Entering sizes stops at the first that is not accepted. -/
theorem setSizes_eq_error {fault : Fault} : p.setSizes given = .error fault ↔
    ∃ before name value after, given.entries = before ++ (name, value) :: after ∧
      (∀ entry ∈ before, ∃ n, sizeFrom entry.1 entry.2 = .ok n) ∧
      sizeFrom name value = .error fault := by
  have hcheck : ∀ entry : String × Datum, ∀ fault : Fault,
      (do return (entry.1, ← sizeFrom entry.1 entry.2)) = (Except.error fault) ↔
        sizeFrom entry.1 entry.2 = .error fault := by
    intro entry fault
    cases sizeFrom entry.1 entry.2 <;> simp [bind, Except.bind, pure, Except.pure]
  rw [setSizes, except_bind_eq_error, or_iff_left (by simp [pure, Except.pure]), checkedSizes,
    mapM_eq_error]
  constructor
  · rintro ⟨before, ⟨name, value⟩, after, hentries, hbefore, hfault⟩
    refine ⟨before, name, value, after, hentries, fun entry hentry => ?_,
      (hcheck (name, value) fault).mp hfault⟩
    obtain ⟨z, hz⟩ := hbefore entry hentry
    obtain ⟨n, hn, -⟩ := except_bind_eq_ok.mp hz
    exact ⟨n, hn⟩
  · rintro ⟨before, name, value, after, hentries, hbefore, hfault⟩
    refine ⟨before, (name, value), after, hentries, fun entry hentry => ?_,
      (hcheck (name, value) fault).mpr hfault⟩
    obtain ⟨n, hn⟩ := hbefore entry hentry
    exact ⟨(entry.1, n), except_bind_eq_ok.mpr ⟨n, hn, rfl⟩⟩

theorem sizeFrom_of_setSizes {p' : Plan} (h : p.setSizes given = .ok p')
    (hmem : (name, value) ∈ given.entries) : ∃ n, sizeFrom name value = .ok n := by
  obtain ⟨checked, hchecked, -⟩ := setSizes_eq_ok h
  obtain ⟨entry, -, hentry⟩ := (mem_of_mapM_eq_ok hchecked).1 _ hmem
  obtain ⟨n, hn, -⟩ := except_bind_eq_ok.mp hentry
  exact ⟨n, hn⟩

/-! ## Completing sizes -/

theorem completeSizes_eq_ok {sizes : List (Label × Int)}
    (h : p.completeSizes given default = .ok sizes) :
    (∀ label ∈ p.labels, ∃ n, (label, n) ∈ sizes ∧ p.sizeFor given default label = .ok n) ∧
      ∀ label n, (label, n) ∈ sizes →
        label ∈ p.labels ∧ p.sizeFor given default label = .ok n := by
  obtain ⟨hto, hfrom⟩ := mem_of_mapM_eq_ok (except_mapError_eq_ok.mp h)
  constructor
  · intro label hlabel
    obtain ⟨pair, hpair, heq⟩ := hto label hlabel
    obtain ⟨n, hn, rfl⟩ := except_map_eq_ok.mp heq
    exact ⟨n, hpair, hn⟩
  · intro label n hpair
    obtain ⟨other, hother, heq⟩ := hfrom _ hpair
    obtain ⟨m, hm, hsame⟩ := except_map_eq_ok.mp heq
    obtain ⟨rfl, rfl⟩ := Prod.mk.inj hsame
    exact ⟨hother, hm⟩

theorem completeSizes_eq_error {fault : Fault} (h : p.completeSizes given default = .error fault) :
    ∃ label ∈ p.labels, ∃ reason, p.sizeFor given default label = .error reason ∧
      fault = .conversion reason := by
  obtain ⟨reason, hmap, rfl⟩ := except_mapError_eq_error.mp h
  obtain ⟨before, label, after, hlabels, -, hlabel⟩ := mapM_eq_error.mp hmap
  exact ⟨label, by simp [hlabels], reason, except_map_eq_error.mp hlabel, rfl⟩

theorem exists_name_of_mem_labels (h : p.root.IsNamed) {label : Label} (hlabel : label ∈ p.labels) :
    ∃ name, label = some name := by
  rw [labels, List.mem_eraseDups, List.mem_flatMap] at hlabel
  obtain ⟨b, hb, hlabel⟩ := hlabel
  cases b with
  | absent => cases hlabel
  | node e l r => exact h e.bare (Branch.bare_mem_bareEntries hb) label hlabel

/-- The table of complete sizes has an entry for each label, its integer. -/
theorem mem_completedTable {sizes : List (Label × Int)} (h : p.root.IsNamed)
    (hsizes : p.completeSizes given default = .ok sizes) (name : String) (value : Datum) :
    (name, value) ∈ (Table.ofPairs (sizes.map fun (label, size) =>
        (label.plainText, Datum.int size))).entries ↔
      some name ∈ p.labels ∧ ∃ n, value = .int n ∧ p.sizeFor given default (some name) = .ok n := by
  obtain ⟨hto, hfrom⟩ := completeSizes_eq_ok hsizes
  have hof : ∀ value, (name, value) ∈ (Table.ofPairs (sizes.map fun (label, size) =>
      (label.plainText, Datum.int size))).entries →
      some name ∈ p.labels ∧ ∃ n, value = .int n ∧
        p.sizeFor given default (some name) = .ok n := by
    intro value hmem
    obtain ⟨⟨label, n⟩, hpair, heq⟩ := List.mem_map.mp (Table.mem_of_mem_ofPairs hmem)
    obtain ⟨rfl, rfl⟩ := Prod.mk.inj heq
    obtain ⟨hlabel, hn⟩ := hfrom label n hpair
    obtain ⟨name, rfl⟩ := exists_name_of_mem_labels h hlabel
    exact ⟨hlabel, n, rfl, hn⟩
  refine ⟨hof value, ?_⟩
  rintro ⟨hlabel, n, rfl, hn⟩
  obtain ⟨m, hpair, hm⟩ := hto _ hlabel
  have hentry : (name, Datum.int m) ∈ sizes.map fun (label, size) =>
      (label.plainText, Datum.int size) := List.mem_map.mpr ⟨_, hpair, rfl⟩
  obtain ⟨other, hmem⟩ := Table.exists_mem_ofPairs hentry
  -- the entry that is there has the integer of the same label
  obtain ⟨-, k, rfl, hk⟩ := hof other hmem
  obtain rfl : k = n := Except.ok.inj (hk.symm.trans hn)
  exact hmem

/-- Giving every label a size stops where a value stands for no integer, is refused where the
integer is below one, and goes through where all are positive. -/
theorem setCompleteSizes_cases (h : p.root.IsNamed) (given : Table Datum) (default : Datum) :
    (∃ fault label, p.setCompleteSizes given default = .error (.conversion fault) ∧
      label ∈ p.labels ∧ p.sizeFor given default label = .error fault) ∨
    (∃ name n, p.setCompleteSizes given default = .error (.setting (.indexSize name (.int n))) ∧
      (∀ label ∈ p.labels, ∃ m, p.sizeFor given default label = .ok m) ∧
      some name ∈ p.labels ∧ p.sizeFor given default (some name) = .ok n ∧ n ≤ 0) ∨
    ∃ p', p.setCompleteSizes given default = .ok p' ∧
      ∀ label ∈ p.labels, ∃ n, p.sizeFor given default label = .ok n ∧ 0 < n := by
  cases hsizes : p.completeSizes given default with
  | error fault =>
    obtain ⟨label, hlabel, reason, hreason, rfl⟩ := completeSizes_eq_error hsizes
    refine Or.inl ⟨reason, label, ?_, hlabel, hreason⟩
    rw [setCompleteSizes, hsizes]
    rfl
  | ok sizes =>
    have htable := mem_completedTable h hsizes
    obtain ⟨hto, -⟩ := completeSizes_eq_ok hsizes
    have hstep : p.setCompleteSizes given default = p.setSizes (Table.ofPairs
        (sizes.map fun (label, size) => (label.plainText, Datum.int size))) := by
      rw [setCompleteSizes, hsizes]
      rfl
    rw [hstep]
    cases hset : p.setSizes (Table.ofPairs
        (sizes.map fun (label, size) => (label.plainText, Datum.int size))) with
    | error fault =>
      obtain ⟨before, name, value, after, hentries, -, hfault⟩ := setSizes_eq_error.mp hset
      obtain ⟨hlabel, n, rfl, hn⟩ := (htable name value).mp (by simp [hentries])
      obtain ⟨hle, rfl⟩ := sizeFrom_int_eq_error hfault
      refine Or.inr (Or.inl ⟨name, n, rfl, fun label hlabel => ?_, hlabel, hn, hle⟩)
      obtain ⟨m, -, hm⟩ := hto label hlabel
      exact ⟨m, hm⟩
    | ok p' =>
      refine Or.inr (Or.inr ⟨p', rfl, fun label hlabel => ?_⟩)
      obtain ⟨name, rfl⟩ := exists_name_of_mem_labels h hlabel
      obtain ⟨n, -, hn⟩ := hto _ hlabel
      obtain ⟨m, hm⟩ := sizeFrom_of_setSizes hset
        ((htable name (.int n)).mpr ⟨hlabel, n, rfl, hn⟩)
      obtain ⟨hpos, hequal⟩ := sizeFrom_eq_ok.mp hm
      obtain rfl : n = m := eq_of_beq hequal
      exact ⟨n, hn, hpos⟩

end Plan

end Contraction
