import Contraction.Text.Characters
import Mathlib.Data.List.TakeWhile

/-!
# What is left of a text without its ends

Trimming takes away at both ends what may be dropped. What it leaves is the one middle part that has
nothing to drop at its ends, however the text is divided (`trimList_eq_iff`).
-/

namespace Contraction.Text

variable {drop : Char → Bool} {cs front middle back : List Char}

/-- Neither end may be dropped. -/
def Bare (drop : Char → Bool) (cs : List Char) : Prop :=
  (∀ c, cs.head? = some c → drop c = false) ∧ ∀ c, cs.getLast? = some c → drop c = false

/-- All of it may be dropped. -/
def AllOf (drop : Char → Bool) (cs : List Char) : Prop :=
  ∀ c ∈ cs, drop c = true

instance (drop : Char → Bool) (cs : List Char) : Decidable (Bare drop cs) :=
  decidable_of_iff (cs.head?.all (!drop ·) = true ∧ cs.getLast?.all (!drop ·) = true) (by
    simp only [Bare, Option.all_eq_true, Bool.not_eq_true'])

instance (drop : Char → Bool) (cs : List Char) : Decidable (AllOf drop cs) :=
  decidable_of_iff (cs.all drop = true) List.all_eq_true

/-- A bare text with what may be dropped in front of it and behind it. -/
def Padded (drop : Char → Bool) (middle cs : List Char) : Prop :=
  Bare drop middle ∧
    ∃ front back, AllOf drop front ∧ AllOf drop back ∧ cs = front ++ middle ++ back

theorem bare_nil : Bare drop [] :=
  ⟨by simp, by simp⟩

theorem allOf_nil : AllOf drop [] := by
  simp [AllOf]

theorem AllOf.not_mem {c : Char} (h : AllOf drop cs) (hc : drop c = false) : c ∉ cs := by
  intro hmem
  cases hc.symm.trans (h c hmem)

theorem Bare.dropWhile (h : Bare drop cs) : cs.dropWhile drop = cs := by
  cases cs with
  | nil => rfl
  | cons c cs => exact List.dropWhile_cons_of_neg (by simp [h.1 c rfl])

theorem Bare.reverse (h : Bare drop cs) : Bare drop cs.reverse := by
  rw [Bare, List.head?_reverse, List.getLast?_reverse]
  exact ⟨h.2, h.1⟩

/-- Of what is left in front of something nothing may be dropped at the left end. -/
theorem head?_dropWhile {c : Char} (h : (cs.dropWhile drop).head? = some c) : drop c = false := by
  have hnot := List.head?_dropWhile_not drop cs
  rw [h] at hnot
  exact hnot

/-- What stands between two bare parts leaves the ends alone. -/
theorem Bare.append (hfront : Bare drop front) (hback : Bare drop back) (hfront' : front ≠ [])
    (hback' : back ≠ []) (middle : List Char) : Bare drop (front ++ middle ++ back) := by
  refine ⟨fun c hc => hfront.1 c ?_, fun c hc => hback.2 c ?_⟩
  · rw [List.append_assoc, List.head?_append, List.head?_eq_some_head hfront', Option.some_or] at hc
    rw [List.head?_eq_some_head hfront', hc]
  · rw [List.getLast?_append, List.getLast?_eq_some_getLast hback', Option.some_or] at hc
    rw [List.getLast?_eq_some_getLast hback', hc]

theorem bare_trimList (drop : Char → Bool) (cs : List Char) : Bare drop (trimList drop cs) := by
  unfold trimList
  refine ⟨fun c hc => ?_, fun c hc => ?_⟩
  · -- the front of what is left is also the front of what was left before its end was dropped
    obtain ⟨back, hback⟩ := List.dropWhile_suffix (l := (cs.dropWhile drop).reverse) drop
    have hsplit := congrArg List.reverse hback
    rw [List.reverse_append, List.reverse_reverse] at hsplit
    refine @head?_dropWhile _ cs _ ?_
    rw [← hsplit, List.head?_append, hc, Option.some_or]
  · rw [List.getLast?_reverse] at hc
    exact head?_dropWhile hc

/-- What has been taken away may be dropped. -/
theorem exists_trimmed (drop : Char → Bool) (cs : List Char) : ∃ front back,
    AllOf drop front ∧ AllOf drop back ∧ cs = front ++ trimList drop cs ++ back := by
  refine ⟨cs.takeWhile drop, ((cs.dropWhile drop).reverse.takeWhile drop).reverse,
    fun c hc => List.mem_takeWhile_imp hc, fun c hc => ?_, ?_⟩
  · exact List.mem_takeWhile_imp (List.mem_reverse.mp hc)
  · unfold trimList
    rw [List.append_assoc, ← List.reverse_append, List.takeWhile_append_dropWhile,
      List.reverse_reverse, List.takeWhile_append_dropWhile]

/-- Trimming leaves the middle part that is bare. -/
theorem trimList_eq_iff : trimList drop cs = middle ↔ Padded drop middle cs := by
  constructor
  · rintro rfl
    exact ⟨bare_trimList drop cs, exists_trimmed drop cs⟩
  · rintro ⟨hbare, front, back, hfront, hback, rfl⟩
    unfold trimList
    rw [List.append_assoc, List.dropWhile_append_of_pos hfront]
    cases middle with
    | nil =>
      have hnothing : ([] ++ back).dropWhile drop = [] := List.dropWhile_eq_nil_iff.mpr hback
      rw [hnothing]
      rfl
    | cons c middle =>
      have hkept : (c :: middle ++ back).dropWhile drop = c :: middle ++ back :=
        List.dropWhile_cons_of_neg (by simp [hbare.1 c rfl])
      rw [hkept, List.reverse_append, List.dropWhile_append_of_pos
        (fun x hx => hback x (List.mem_reverse.mp hx)), hbare.reverse.dropWhile,
        List.reverse_reverse]

theorem Padded.eq (h : Padded drop middle cs) : trimList drop cs = middle :=
  trimList_eq_iff.mpr h

/-- A text is trimmed to nothing if all of it may be dropped. -/
theorem trimList_eq_nil : trimList drop cs = [] ↔ AllOf drop cs := by
  rw [trimList_eq_iff]
  constructor
  · rintro ⟨-, front, back, hfront, hback, rfl⟩
    rw [List.append_nil]
    exact List.forall_mem_append.mpr ⟨hfront, hback⟩
  · exact fun h => ⟨bare_nil, cs, [], h, allOf_nil, by simp⟩

/-! ## Blanks and digits -/

/-- No digit of any script is a blank. -/
theorem isBlank_of_digitValue? {c : Char} {d : Nat} (h : digitValue? c = some d) :
    isBlank c = false := by
  -- a blank by its code point
  let blank : Nat → Bool := fun n =>
    (0x09 ≤ n && n ≤ 0x0D) || (0x1C ≤ n && n ≤ 0x20) || n == 0x85 || n == 0xA0 || n == 0x1680 ||
      (0x2000 ≤ n && n ≤ 0x200A) || n == 0x2028 || n == 0x2029 || n == 0x202F || n == 0x205F ||
      n == 0x3000
  have hall : ∀ first ∈ digitZeros, ∀ d < 10, blank (first + d) = false := by decide +kernel
  have hd := digitValue?_lt h
  obtain ⟨first, hfound, rfl⟩ := Option.map_eq_some_iff.mp h
  have hrange := List.find?_some hfound
  simp only [Bool.and_eq_true, decide_eq_true_eq] at hrange
  have hsum : first + (c.toNat - first) = c.toNat := by omega
  have hblank := hall first (List.mem_of_find?_eq_some hfound) _ hd
  rw [hsum] at hblank
  exact hblank

end Contraction.Text
