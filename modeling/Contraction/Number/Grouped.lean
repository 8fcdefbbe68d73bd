/-!
# Digits in groups

Whole numbers are shown with a comma between groups of three digits, counted from the right.
-/

namespace Contraction.Number

/-- Digits with the lowest first, a comma behind every third that is not the last. -/
def groupFromRight : List Char → List Char
  | a :: b :: c :: d :: rest => a :: b :: c :: ',' :: groupFromRight (d :: rest)
  | digits => digits

/-- The digits with commas between the groups. -/
def groupDigits (digits : List Char) : List Char :=
  (groupFromRight digits.reverse).reverse

/-- A natural number in base ten with commas between the groups. -/
def groupedNat (n : Nat) : String :=
  String.ofList (groupDigits (Nat.toDigits 10 n))

/-- An integer in base ten with commas between the groups. -/
def groupedInt (n : Int) : String :=
  if n < 0 then "-" ++ groupedNat n.natAbs else groupedNat n.natAbs

theorem groupFromRight_filter (digits : List Char) (h : ',' ∉ digits) :
    (groupFromRight digits).filter (· != ',') = digits := by
  fun_induction groupFromRight digits with
  | case1 a b c d rest ih =>
    simp only [List.mem_cons, not_or] at h
    have step := ih (by simp only [List.mem_cons, not_or]; exact h.2.2.2)
    simp only [List.filter_cons]
    simp [step, Ne.symm h.1, Ne.symm h.2.1, Ne.symm h.2.2.1]
  | case2 digits _ =>
    refine List.filter_eq_self.mpr fun c hc => ?_
    simpa using fun e : c = ',' => h (e ▸ hc)

end Contraction.Number
