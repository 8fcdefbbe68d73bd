import Contraction.NodeIds
import Mathlib.Data.List.TakeWhile

/-!
# Numbers of ids

An issued id reads as its number, so different numbers make different ids. A source that has moved
on past some ids stands behind the number of each of them, unless it met one that is too long to be
read.

* `number?_nodeId` — an issued id reads as its number
* `IsPast` — a source has no id left to issue that is among the used ones
-/

namespace Contraction

open Text

namespace Text

/-- The digits with which numbers are written are read as what they count from zero. -/
theorem digitValue?_of_isDigit {c : Char} (h : c.isDigit = true) :
    digitValue? c = some (c.toNat - '0'.toNat) := by
  have hrange : 48 ≤ c.toNat ∧ c.toNat ≤ 57 := by
    simp only [Char.isDigit, Bool.and_eq_true, decide_eq_true_eq, ge_iff_le,
      UInt32.le_iff_toNat_le] at h
    exact h
  have hfirst : digitZeros.find? (fun first => first ≤ c.toNat && c.toNat < first + 10) =
      some 48 := by
    refine List.find?_cons_of_pos ?_
    rw [Bool.and_eq_true, decide_eq_true_eq, decide_eq_true_eq]
    omega
  rw [digitValue?, hfirst]
  rfl

theorem digitValues?_of_isDigit {cs : List Char} (h : ∀ c ∈ cs, c.isDigit = true) :
    digitValues? cs = some (cs.map fun c => c.toNat - '0'.toNat) := by
  induction cs with
  | nil => rfl
  | cons c cs ih =>
    have hrest := ih fun d hd => h d (List.mem_cons_of_mem c hd)
    rw [digitValues?] at hrest ⊢
    rw [List.mapM_cons, digitValue?_of_isDigit (h c List.mem_cons_self), hrest]
    rfl

end Text

namespace NodeIds

variable {ids : NodeIds} {id : String} {used : List String} {n m : Nat}

theorem dropFinalBreak_of_isDigit {cs : List Char} (h : ∀ c ∈ cs, c.isDigit = true) :
    dropFinalBreak cs = cs := by
  refine if_neg fun hlast => ?_
  have hbreak := h '\n' (List.mem_of_getLast? hlast)
  exact absurd hbreak (by decide)

/-- The digits of an id that is written with digits of the first ten behind its fixed part. -/
theorem digitsOfChars?_of_isDigit {cs : List Char} (hne : cs ≠ [])
    (h : ∀ c ∈ cs, c.isDigit = true) :
    digitsOfChars? ("node_".toList ++ cs) = some (cs.map fun c => c.toNat - '0'.toNat) := by
  show digitsOfChars? ('n' :: 'o' :: 'd' :: 'e' :: '_' :: cs) = _
  rw [digitsOfChars?, dropFinalBreak_of_isDigit h, digitValues?_of_isDigit h]
  cases cs with
  | nil => exact absurd rfl hne
  | cons c cs => rfl

/-- The same of an id that is given by its digits. -/
theorem digits?_of_isDigit {cs : List Char} (hne : cs ≠ []) (h : ∀ c ∈ cs, c.isDigit = true) :
    digits? ("node_" ++ String.ofList cs) = some (cs.map fun c => c.toNat - '0'.toNat) := by
  have hchars : ("node_" ++ String.ofList cs).toList = "node_".toList ++ cs :=
    (String.toList_append ..).trans (congrArg _ String.toList_ofList)
  rw [digits?, hchars, digitsOfChars?_of_isDigit hne h]

/-- An issued id reads as its number. -/
theorem number?_nodeId (n : Nat) : number? (nodeId n) = some n := by
  have hdigits : ∀ c ∈ Nat.toDigits 10 n, c.isDigit = true := fun c hc =>
    Nat.isDigit_of_mem_toDigits (by decide) (by decide) hc
  have hchars : (nodeId n).toList = "node_".toList ++ Nat.toDigits 10 n := by
    rw [nodeId, String.toList_append, Nat.toString_eq_repr, Nat.toList_repr]
  rw [number?, digits?, hchars, digitsOfChars?_of_isDigit Nat.toDigits_ne_nil hdigits,
    Option.map_some, ofDigits, List.foldl_map]
  exact congrArg some Nat.ofDigitChars_ten_toDigits

theorem nodeId_injective : Function.Injective nodeId := by
  intro n m h
  have hnumber := congrArg number? h
  rw [number?_nodeId, number?_nodeId] at hnumber
  exact Option.some.inj hnumber

/-- All ids with a number have one below the next. -/
def IsPast (ids : NodeIds) (used : List String) : Prop :=
  ∀ id ∈ used, ∀ n, number? id = some n → n < ids.next

theorem IsPast.subset {fewer : List String} (h : ids.IsPast used) (hsub : fewer ⊆ used) :
    ids.IsPast fewer :=
  fun id hid => h id (hsub hid)

/-- The next id is none of those that the source is past. -/
theorem IsPast.issue_not_mem (h : ids.IsPast used) : ids.issue.1 ∉ used := by
  intro hmem
  exact Nat.lt_irrefl _ (h _ hmem _ (number?_nodeId ids.next))

/-- Issuing an id goes past it. -/
theorem IsPast.issue (h : ids.IsPast used) : ids.issue.2.IsPast (ids.issue.1 :: used) := by
  intro id hid n hn
  rcases List.mem_cons.mp hid with rfl | hid
  · obtain rfl : n = ids.next := by
      rw [NodeIds.issue, number?_nodeId] at hn
      exact (Option.some.inj hn).symm
    exact Nat.lt_succ_self _
  · exact Nat.lt_succ_of_lt (h id hid n hn)

/-- Moving on past ids keeps past what came before, and goes past each of them. -/
theorem isPast_foldl_avoid (ids : NodeIds) (used : List String) :
    ids.next ≤ (used.foldl avoid ids).next ∧ (used.foldl avoid ids).IsPast used := by
  induction used generalizing ids with
  | nil => exact ⟨Nat.le_refl _, by simp [IsPast]⟩
  | cons id used ih =>
    obtain ⟨hle, hpast⟩ := ih (ids.avoid id)
    refine ⟨Nat.le_trans (next_le_avoid ids id) hle, ?_⟩
    intro other hother n hn
    rcases List.mem_cons.mp hother with rfl | hother
    · exact Nat.lt_of_lt_of_le (number_lt_avoid ids hn) hle
    · exact hpast other hother n hn

/-- Where no id is too long, the source goes past all of them. -/
theorem isPast_avoidAll (ids : NodeIds) (h : ∀ id ∈ used, (excess? id).isNone) :
    (ids.avoidAll used).IsPast used := by
  have hall : used.takeWhile (fun id => (excess? id).isNone) = used :=
    List.takeWhile_eq_self_iff.mpr h
  rw [avoidAll, hall]
  exact (isPast_foldl_avoid ids used).2

end NodeIds

end Contraction
