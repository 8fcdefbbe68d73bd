import Contraction.Number.Literal
import Contraction.Proofs.NodeIds
import Contraction.Proofs.Text.Trimming

/-!
# Integer literals

An integer literal is an optional sign and a run of digits, of any scripts, in which one underscore
may stand between two digits (`DigitRun`, `IntegerLiteral`). Reading accepts a literal with blanks
around it, except that the information separators do not count as blanks there and that there is a
limit to the number of its digits (`integer?_eq_some_iff`). So an integer is read back from its
decimal digits if and only if it has no more than these (`readInteger_toString`).
-/

namespace Contraction.Number

open Text

/-! ## Runs of digits -/

/-- Digits, with one underscore between two of them or none, and their values. -/
inductive DigitRun : List Char → List Nat → Prop where
  | one {c : Char} {d : Nat} (h : digitValue? c = some d) : DigitRun [c] [d]
  | next {c : Char} {d : Nat} {cs : List Char} {ds : List Nat} (h : digitValue? c = some d)
      (rest : DigitRun cs ds) : DigitRun (c :: cs) (d :: ds)
  | underscore {c : Char} {d : Nat} {cs : List Char} {ds : List Nat} (h : digitValue? c = some d)
      (rest : DigitRun cs ds) : DigitRun (c :: '_' :: cs) (d :: ds)

variable {cs rest run literal : List Char} {ds : List Nat} {n : Int} {text : String}
  {afterDigit : Bool}

theorem digitValue?_underscore : digitValue? '_' = none := by
  decide +kernel

theorem digitValue?_plus : digitValue? '+' = none := by
  decide +kernel

theorem digitValue?_minus : digitValue? '-' = none := by
  decide +kernel

namespace DigitRun

theorem exists_head (h : DigitRun cs ds) : ∃ c d, cs.head? = some c ∧ digitValue? c = some d := by
  cases h with
  | one h => exact ⟨_, _, rfl, h⟩
  | next h _ => exact ⟨_, _, rfl, h⟩
  | underscore h _ => exact ⟨_, _, rfl, h⟩

theorem exists_last (h : DigitRun cs ds) :
    ∃ c d, cs.getLast? = some c ∧ digitValue? c = some d := by
  induction h with
  | one h => exact ⟨_, _, rfl, h⟩
  | next _ _ ih =>
    obtain ⟨c, d, hlast, hc⟩ := ih
    exact ⟨c, d, by rw [List.getLast?_cons, hlast]; rfl, hc⟩
  | underscore _ _ ih =>
    obtain ⟨c, d, hlast, hc⟩ := ih
    exact ⟨c, d, by rw [List.getLast?_cons, List.getLast?_cons, hlast]; rfl, hc⟩

theorem ne_nil (h : DigitRun cs ds) : ds ≠ [] := by
  cases h <;> exact List.cons_ne_nil _ _

/-- What digits are taken off a run is all of it. -/
theorem takeDigits (h : DigitRun cs ds) (afterDigit : Bool) :
    takeDigits afterDigit cs = (ds, []) := by
  induction h generalizing afterDigit with
  | one h =>
    rw [Number.takeDigits, h]
    rfl
  | next h _ ih =>
    rw [Number.takeDigits, h]
    dsimp only
    rw [ih true]
  | @underscore c d cs ds h rest ih =>
    obtain ⟨first, value, hfirst, hvalue⟩ := rest.exists_head
    have hnext : cs.head?.any isDecimalDigit = true := by
      rw [hfirst, Option.any_some, isDecimalDigit, hvalue]
      rfl
    rw [Number.takeDigits, h]
    dsimp only
    rw [Number.takeDigits, digitValue?_underscore, hnext]
    show (d :: (Number.takeDigits false cs).1, (Number.takeDigits false cs).2) = _
    rw [ih false]

end DigitRun

/-- Where nothing is left behind the digits that are taken off, they were a run, or the part of one
behind its first underscore. -/
theorem digitRun_of_takeDigits (h : takeDigits afterDigit cs = (ds, [])) :
    (cs = [] ∧ ds = []) ∨ DigitRun cs ds ∨ ∃ rest, cs = '_' :: rest ∧ DigitRun rest ds := by
  induction cs generalizing afterDigit ds with
  | nil => exact Or.inl ⟨rfl, (Prod.mk.inj h).1.symm⟩
  | cons c cs ih =>
    rw [takeDigits] at h
    cases hc : digitValue? c with
    | some d =>
      rw [hc] at h
      dsimp only at h
      rcases htaken : takeDigits true cs with ⟨more, left⟩
      rw [htaken] at h
      obtain ⟨rfl, rfl⟩ := Prod.mk.inj h
      rcases ih htaken with ⟨rfl, rfl⟩ | hrun | ⟨rest, rfl, hrun⟩
      · exact Or.inr (Or.inl (.one hc))
      · exact Or.inr (Or.inl (.next hc hrun))
      · exact Or.inr (Or.inl (.underscore hc hrun))
    | none =>
      rw [hc] at h
      dsimp only at h
      split at h
      · next hunderscore =>
        simp only [Bool.and_eq_true, beq_iff_eq] at hunderscore
        obtain ⟨⟨-, rfl⟩, hdigit⟩ := hunderscore
        rcases ih h with ⟨rfl, -⟩ | hrun | ⟨rest, rfl, -⟩
        · cases hdigit
        · exact Or.inr (Or.inr ⟨cs, rfl, hrun⟩)
        · rw [List.head?_cons, Option.any_some, isDecimalDigit, digitValue?_underscore] at hdigit
          cases hdigit
      · cases (Prod.mk.inj h).2

/-! ## Literals -/

/-- An integer literal, the values of its digits, and the integer that it stands for. -/
inductive IntegerLiteral : List Char → List Nat → Int → Prop where
  | unsigned {run : List Char} {ds : List Nat} (h : DigitRun run ds) :
      IntegerLiteral run ds (ofDigits ds)
  | plus {run : List Char} {ds : List Nat} (h : DigitRun run ds) :
      IntegerLiteral ('+' :: run) ds (ofDigits ds)
  | minus {run : List Char} {ds : List Nat} (h : DigitRun run ds) :
      IntegerLiteral ('-' :: run) ds (-(ofDigits ds : Int))

/-- A text writes an integer: it is a literal with no more digits than are read, and what may stand
around it. -/
def WritesInteger (cs : List Char) (n : Int) : Prop :=
  ∃ literal ds, Padded isPadding literal cs ∧ IntegerLiteral literal ds n ∧ ds.length ≤ digitLimit

theorem isPadding_of_digitValue? {c : Char} {d : Nat} (h : digitValue? c = some d) :
    isPadding c = false := by
  rw [isPadding, isBlank_of_digitValue? h]
  rfl

namespace IntegerLiteral

/-- A literal neither begins nor ends with what may be dropped, unless that is a sign or a digit. -/
theorem bare {drop : Char → Bool} (h : IntegerLiteral literal ds n) (hplus : drop '+' = false)
    (hminus : drop '-' = false)
    (hdigit : ∀ c d, digitValue? c = some d → drop c = false) : Bare drop literal := by
  have hrun : ∀ {run : List Char}, DigitRun run ds → Bare drop run := by
    intro run hrun
    obtain ⟨first, _, hfirst, hvalue⟩ := hrun.exists_head
    obtain ⟨last, _, hlast, hvalue'⟩ := hrun.exists_last
    refine ⟨fun c hc => ?_, fun c hc => ?_⟩
    · exact Option.some.inj (hfirst.symm.trans hc) ▸ hdigit _ _ hvalue
    · exact Option.some.inj (hlast.symm.trans hc) ▸ hdigit _ _ hvalue'
  have hsigned : ∀ {sign : Char} {run : List Char}, drop sign = false → DigitRun run ds →
      Bare drop (sign :: run) := by
    intro sign run hsign hdigits
    obtain ⟨last, _, hlast, hvalue⟩ := hdigits.exists_last
    refine ⟨fun c hc => Option.some.inj hc ▸ hsign, fun c hc => ?_⟩
    rw [List.getLast?_cons, hlast] at hc
    exact Option.some.inj hc ▸ hdigit _ _ hvalue
  cases h with
  | unsigned h => exact hrun h
  | plus h => exact hsigned hplus h
  | minus h => exact hsigned hminus h

/-- Taking the sign and the digits off a literal leaves nothing. -/
theorem exists_sign (h : IntegerLiteral literal ds n) : ∃ negative run,
    takeSign literal = (negative, run) ∧ DigitRun run ds ∧
      n = if negative then -(ofDigits ds : Int) else ofDigits ds := by
  cases h with
  | unsigned h =>
    obtain ⟨c, d, hc, hd⟩ := h.exists_head
    refine ⟨false, literal, ?_, h, rfl⟩
    unfold takeSign
    split
    · obtain rfl := Option.some.inj hc
      cases digitValue?_minus.symm.trans hd
    · obtain rfl := Option.some.inj hc
      cases digitValue?_plus.symm.trans hd
    · rfl
  | plus h => exact ⟨false, _, rfl, h, rfl⟩
  | minus h => exact ⟨true, _, rfl, h, rfl⟩

theorem of_sign {negative : Bool} (hsign : takeSign literal = (negative, run))
    (h : DigitRun run ds) :
    IntegerLiteral literal ds (if negative then -(ofDigits ds : Int) else ofDigits ds) := by
  unfold takeSign at hsign
  split at hsign
  · obtain ⟨rfl, rfl⟩ := Prod.mk.inj hsign
    exact .minus h
  · obtain ⟨rfl, rfl⟩ := Prod.mk.inj hsign
    exact .plus h
  · obtain ⟨rfl, rfl⟩ := Prod.mk.inj hsign
    exact .unsigned h

/-- A literal is read if it does not have too many digits. -/
theorem readInteger (h : IntegerLiteral literal ds n)
    (hpadded : Padded isPadding literal text.toList) : readInteger text =
      if digitLimit < ds.length then .error (.tooLong ds.length) else .ok n := by
  obtain ⟨negative, run, hsign, hrun, rfl⟩ := h.exists_sign
  have hsome : ds.isEmpty = false := List.isEmpty_eq_false_iff.mpr hrun.ne_nil
  rw [Number.readInteger, hpadded.eq, hsign]
  dsimp only
  rw [hrun.takeDigits false]
  dsimp only
  rw [hsome]
  rfl

end IntegerLiteral

/-- Reading accepts exactly the texts that write an integer. -/
theorem readInteger_eq_ok : readInteger text = .ok n ↔ WritesInteger text.toList n := by
  constructor
  · intro h
    unfold readInteger at h
    rcases hsign : takeSign (trimList isPadding text.toList) with ⟨negative, run⟩
    rw [hsign] at h
    dsimp only at h
    rcases htaken : takeDigits false run with ⟨ds, left⟩
    rw [htaken] at h
    dsimp only at h
    split at h
    · cases h
    · next hdigits =>
      split at h
      · cases h
      · next hlimit =>
        split at h
        · next hleft =>
          obtain rfl := List.isEmpty_iff.mp hleft
          obtain rfl := Except.ok.inj h
          rcases digitRun_of_takeDigits htaken with ⟨-, rfl⟩ | hrun | ⟨rest, rfl, -⟩
          · exact absurd rfl hdigits
          · exact ⟨_, ds, trimList_eq_iff.mp rfl, .of_sign hsign hrun, by omega⟩
          · -- no underscore is in front of the first digit
            rw [takeDigits, digitValue?_underscore] at htaken
            cases htaken
        · cases h
  · rintro ⟨literal, ds, hpadded, hliteral, hlimit⟩
    rw [hliteral.readInteger hpadded, if_neg (by omega)]

theorem integer?_eq_some_iff : integer? text = some n ↔ WritesInteger text.toList n := by
  rw [← readInteger_eq_ok, integer?]
  cases readInteger text <;> simp [Except.toOption]

theorem integer?_eq_none_iff : integer? text = none ↔ ∀ n, ¬WritesInteger text.toList n := by
  rw [Option.eq_none_iff_forall_ne_some]
  exact forall_congr' fun n => not_congr integer?_eq_some_iff

/-! ## Decimal digits -/

theorem digitRun_of_isDigit {c : Char} (h : ∀ d ∈ c :: cs, d.isDigit = true) :
    DigitRun (c :: cs) ((c :: cs).map fun d => d.toNat - '0'.toNat) := by
  induction cs generalizing c with
  | nil => exact .one (digitValue?_of_isDigit (h c List.mem_cons_self))
  | cons d cs ih =>
    obtain ⟨hc, hrest⟩ := List.forall_mem_cons.mp h
    exact .next (digitValue?_of_isDigit hc) (ih hrest)

/-- The decimal digits of a number are a literal for it. -/
theorem integerLiteral_toString (n : Nat) : ∃ ds,
    IntegerLiteral (toString n).toList ds n ∧ ds.length = (Nat.toDigits 10 n).length := by
  have hdigits : ∀ c ∈ Nat.toDigits 10 n, c.isDigit = true := fun c hc =>
    Nat.isDigit_of_mem_toDigits (by decide) (by decide) hc
  have hvalue : ofDigits ((Nat.toDigits 10 n).map fun c => c.toNat - '0'.toNat) = n := by
    rw [ofDigits, List.foldl_map]
    exact Nat.ofDigitChars_ten_toDigits
  refine ⟨(Nat.toDigits 10 n).map fun c => c.toNat - '0'.toNat, ?_, List.length_map ..⟩
  rw [Nat.toString_eq_repr, Nat.toList_repr]
  cases hcs : Nat.toDigits 10 n with
  | nil => exact absurd hcs Nat.toDigits_ne_nil
  | cons c cs =>
    rw [hcs] at hdigits hvalue
    have hliteral := IntegerLiteral.unsigned (digitRun_of_isDigit hdigits)
    rw [hvalue] at hliteral
    exact hliteral

theorem length_toDigits_le {n k : Nat} (hk : 0 < k) :
    (Nat.toDigits 10 n).length ≤ k ↔ n < Nat.pow 10 k :=
  Nat.length_toDigits_le_iff (by decide) hk

/-- Blanks in front of the decimal digits of a number do not count. -/
theorem padded_toString {padding : List Char} (hpadding : AllOf isPadding padding) (n : Nat) :
    Padded isPadding (toString n).toList (padding ++ (toString n).toList) := by
  obtain ⟨ds, hliteral, -⟩ := integerLiteral_toString n
  have hbare : Bare isPadding (toString n).toList :=
    hliteral.bare (by decide) (by decide) fun _ _ hd => isPadding_of_digitValue? hd
  exact ⟨hbare, padding, [], hpadding, allOf_nil, by simp⟩

theorem writesInteger_toString {padding : List Char} {n : Nat} (hpadding : AllOf isPadding padding)
    (hn : n < Nat.pow 10 digitLimit) : WritesInteger (padding ++ (toString n).toList) n := by
  obtain ⟨ds, hliteral, hlength⟩ := integerLiteral_toString n
  refine ⟨(toString n).toList, ds, padded_toString hpadding n, hliteral, ?_⟩
  rw [hlength]
  exact (length_toDigits_le (by decide)).mpr hn

/-- A number is read back from its decimal digits as long as these are not too many. -/
theorem readInteger_toString (n : Nat) : readInteger (toString n) =
    if n < Nat.pow 10 digitLimit then .ok (n : Int)
    else .error (.tooLong (Nat.toDigits 10 n).length) := by
  split
  · next hn => exact readInteger_eq_ok.mpr (writesInteger_toString allOf_nil hn)
  · next hn =>
    obtain ⟨ds, hliteral, hlength⟩ := integerLiteral_toString n
    have hlimit := mt (length_toDigits_le (k := digitLimit) (by decide)).mp hn
    rw [hliteral.readInteger (padded_toString allOf_nil n), hlength, if_pos (by omega)]

end Contraction.Number
