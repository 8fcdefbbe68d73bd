import Contraction.Measurement.Share
import Mathlib.Data.Prod.Lex
import Mathlib.Order.OrderDual
import Mathlib.Tactic.Tauto

/-!
# Spans of shares

The least and the greatest of some numbers are found by one pass from the left, and so they could
depend on the order: a NaN wins against all others, and the two zeros are equal in value. Among
numbers that are neither NaN nor the negative zero they do not, and the shares of integers are such
numbers: what is at least one quantum is never rounded to zero.

* `spanOf_congr` — lists with the same members have the same span
* `isPlain_percentOf` — a share of an integer is neither NaN nor the negative zero
-/

namespace Contraction.Number

namespace Binary64

variable {x y : Binary64} {xs ys : List Binary64} {num den k : Nat} {s : Bool}

/-! ## Rounding -/

/-- What is at least a power of two stays so when it is rounded. -/
theorem pow_le_roundQuanta (h : Nat.pow 2 k ≤ num / den) : Nat.pow 2 k ≤ roundQuanta num den := by
  rw [roundQuanta]
  dsimp only
  split
  · exact Nat.le_trans h (le_roundHalfEven num den)
  · next hlarge =>
    -- the step divides every power of two up to the greatest that is not too large
    have hpos : num / den ≠ 0 := by
      have hone : 0 < Nat.pow 2 k := Nat.pow_pos (by decide)
      omega
    have hlog : 52 ≤ (num / den).log2 := by
      rw [Nat.le_log2 hpos]
      have h53 : Nat.pow 2 53 = 2 ^ 52 * 2 := by decide
      omega
    have hk : k ≤ (num / den).log2 := (Nat.le_log2 hpos).mpr h
    have hsplit : 2 ^ (num / den).log2 = 2 ^ 52 * 2 ^ ((num / den).log2 - 52) := by
      rw [← Nat.pow_add]
      congr 1
      omega
    have hstep : 2 ^ 52 ≤ num / (den * 2 ^ ((num / den).log2 - 52)) := by
      rw [← Nat.div_div_eq_div_mul, Nat.le_div_iff_mul_le (Nat.pow_pos (by decide)), ← hsplit]
      exact Nat.log2_self_le hpos
    calc Nat.pow 2 k
        ≤ 2 ^ (num / den).log2 := Nat.pow_le_pow_right (by decide) hk
      _ = 2 ^ 52 * 2 ^ ((num / den).log2 - 52) := hsplit
      _ ≤ _ := Nat.mul_le_mul_right _ (Nat.le_trans hstep (le_roundHalfEven ..))

/-! ## Numbers without NaN and the negative zero -/

/-- Neither NaN nor the negative zero. Such numbers are equal if they are equal in value. -/
def IsPlain (x : Binary64) : Prop :=
  x ≠ nan ∧ x ≠ finite true 0

theorem eq_of_rank_eq (hx : x.IsPlain) (hy : y.IsPlain) (h : x.rank = y.rank) : x = y := by
  obtain ⟨hxn, hxz⟩ := hx
  obtain ⟨hyn, hyz⟩ := hy
  cases x with
  | nan => exact absurd rfl hxn
  | infinite s =>
    cases y with
    | nan => exact absurd rfl hyn
    | infinite t => cases s <;> cases t <;> simp [rank] at h ⊢
    | finite t q => cases s <;> simp [rank] at h
  | finite s q =>
    cases y with
    | nan => exact absurd rfl hyn
    | infinite t => cases t <;> simp [rank] at h
    | finite t q' =>
      simp only [rank, Prod.mk.injEq, true_and] at h
      cases s <;> cases t <;> simp [signedQuanta] at h hxz hyz ⊢ <;> omega

theorem isPlain_ofQuanta (h : s = true → 0 < roundQuanta num den) :
    (ofQuanta s num den).IsPlain := by
  rw [ofQuanta]
  split
  · exact ⟨by simp, by simp⟩
  · refine ⟨by simp, fun heq => ?_⟩
    obtain ⟨hs, hq⟩ := Binary64.finite.inj heq
    have hpos := h hs
    omega

/-! ## The least and the greatest -/

theorem lt_iff (hx : x ≠ nan) (hy : y ≠ nan) :
    lt x y = true ↔ toLex x.rank < toLex y.rank := by
  rw [Prod.Lex.toLex_lt_toLex]
  simp [lt, hx, hy]

/-- A pass from the left that keeps what comes first in some order ends with a member that nothing
comes before. -/
theorem foldl_pick {κ : Type} [LinearOrder κ] {key : Binary64 → κ}
    {pick : Binary64 → Binary64 → Binary64}
    (hpick : ∀ x y, x ≠ nan → y ≠ nan → pick x y = if key y < key x then y else x)
    (h : ∀ y ∈ x :: xs, y ≠ nan) :
    xs.foldl pick x ∈ x :: xs ∧ ∀ y ∈ x :: xs, key (xs.foldl pick x) ≤ key y := by
  induction xs generalizing x with
  | nil => simp
  | cons y ys ih =>
    have hx : x ≠ nan := h x (by simp)
    have hy : y ≠ nan := h y (by simp)
    have hchosen : pick x y = x ∧ key x ≤ key y ∨ pick x y = y ∧ key y ≤ key x := by
      rw [hpick x y hx hy]
      by_cases hlt : key y < key x
      · exact Or.inr ⟨if_pos hlt, hlt.le⟩
      · exact Or.inl ⟨if_neg hlt, not_lt.mp hlt⟩
    rw [List.foldl_cons]
    rcases hchosen with ⟨heq, hle⟩ | ⟨heq, hle⟩
    · rw [heq]
      obtain ⟨hmem, hleast⟩ := ih (x := x) fun z hz => h z (by simp at hz ⊢; tauto)
      refine ⟨by simp at hmem ⊢; tauto, fun z hz => ?_⟩
      rcases List.mem_cons.mp hz with rfl | hz
      · exact hleast z (by simp)
      · rcases List.mem_cons.mp hz with rfl | hz
        · exact (hleast x (by simp)).trans hle
        · exact hleast z (by simp [hz])
    · rw [heq]
      obtain ⟨hmem, hleast⟩ := ih (x := y) fun z hz => h z (by simp at hz ⊢; tauto)
      refine ⟨by simp at hmem ⊢; tauto, fun z hz => ?_⟩
      rcases List.mem_cons.mp hz with rfl | hz
      · exact (hleast y (by simp)).trans hle
      · exact hleast z hz

/-- Which member such a pass ends with does not depend on the order of the members. -/
theorem foldl_pick_congr {κ : Type} [LinearOrder κ] {key : Binary64 → κ}
    {pick : Binary64 → Binary64 → Binary64}
    (hpick : ∀ x y, x ≠ nan → y ≠ nan → pick x y = if key y < key x then y else x)
    (hkey : ∀ x y, key x = key y → x.rank = y.rank) (hxs : ∀ z ∈ x :: xs, z.IsPlain)
    (h : ∀ z, z ∈ x :: xs ↔ z ∈ y :: ys) : xs.foldl pick x = ys.foldl pick y := by
  obtain ⟨hmem, hleast⟩ := foldl_pick hpick fun z hz => (hxs z hz).1
  have hys : ∀ z ∈ y :: ys, z ≠ nan := fun z hz => (hxs z ((h z).mpr hz)).1
  obtain ⟨hmem', hleast'⟩ := foldl_pick hpick hys
  have heq := le_antisymm (hleast _ ((h _).mpr hmem')) (hleast' _ ((h _).mp hmem))
  exact eq_of_rank_eq (hxs _ hmem) (hxs _ ((h _).mpr hmem')) (hkey _ _ heq)

theorem min_eq (hx : x ≠ nan) (hy : y ≠ nan) :
    min x y = if toLex y.rank < toLex x.rank then y else x := by
  simp [min, hx, hy, lt_iff]

theorem max_eq (hx : x ≠ nan) (hy : y ≠ nan) :
    max x y = if OrderDual.toDual (toLex y.rank) < OrderDual.toDual (toLex x.rank) then y
      else x := by
  simp [max, hx, hy, lt_iff]

/-- Lists with the same members have the same span. -/
theorem spanOf_congr (hxs : ∀ z ∈ xs, z.IsPlain) (h : ∀ z, z ∈ xs ↔ z ∈ ys) :
    spanOf xs = spanOf ys := by
  cases xs with
  | nil =>
    cases ys with
    | nil => rfl
    | cons y ys => exact absurd ((h y).mpr (by simp)) (by simp)
  | cons x xs =>
    cases ys with
    | nil => exact absurd ((h x).mp (by simp)) (by simp)
    | cons y ys =>
      have hleast : least (x :: xs) = least (y :: ys) :=
        foldl_pick_congr (fun _ _ => min_eq) (fun _ _ heq => toLex.injective heq) hxs h
      have hgreatest : greatest (x :: xs) = greatest (y :: ys) :=
        foldl_pick_congr (fun _ _ => max_eq)
          (fun _ _ heq => toLex.injective (OrderDual.toDual.injective heq)) hxs h
      rw [spanOf, spanOf, hleast, hgreatest]

/-! ## Shares of integers -/

theorem two_pow_pos (k : Nat) : 0 < Nat.pow 2 k :=
  Nat.pow_pos (by decide)

theorem two_pow_mul_eq {i j k : Nat} (h : i + j = k + k) :
    Nat.pow 2 i * Nat.pow 2 j = Nat.pow 2 k * Nat.pow 2 k := by
  show 2 ^ i * 2 ^ j = 2 ^ k * 2 ^ k
  rw [← Nat.pow_add, ← Nat.pow_add, h]

theorem one_eq : one = Nat.pow 2 1074 := by
  unfold one
  rfl

theorem beyond_eq : beyond = Nat.pow 2 (1024 + 1074) := by
  unfold beyond
  rfl

theorem one_pos : 0 < one := by
  rw [one_eq]
  apply two_pow_pos

-- the two bounds are numbers of hundreds of digits, which are not to be written out
attribute [local irreducible] one beyond

/-- An integer other than zero has at least as many quanta as one. -/
theorem one_le_roundQuanta {n : Int} (hn : n ≠ 0) :
    one ≤ roundQuanta (n.natAbs * one) 1 := by
  have hle : one ≤ n.natAbs * one / 1 := by
    rw [Nat.div_one]
    exact Nat.le_mul_of_pos_left _ (Int.natAbs_pos.mpr hn)
  rw [one_eq] at hle ⊢
  apply pow_le_roundQuanta
  exact hle

theorem ofInt_eq (n : Int) : ofInt n = ofQuanta (n < 0) (n.natAbs * one) 1 := by
  rw [ofInt, ofRatio]

theorem isPlain_ofInt (n : Int) : (ofInt n).IsPlain := by
  rw [ofInt_eq]
  refine isPlain_ofQuanta fun hs => ?_
  have hn : n < 0 := of_decide_eq_true hs
  exact Nat.lt_of_lt_of_le one_pos (one_le_roundQuanta (by omega))

theorem isPlain_zero : zero.IsPlain :=
  ⟨by simp [zero], by simp [zero]⟩

/-- A finite number that comes of rounding has fewer quanta than are too many. -/
theorem lt_beyond_of_ofQuanta {q : Nat} {t : Bool} (h : ofQuanta s num den = finite t q) :
    q = roundQuanta num den ∧ t = s ∧ q < beyond := by
  rw [ofQuanta] at h
  split at h
  · cases h
  · next hlt =>
    rw [finite.injEq] at h
    obtain ⟨rfl, rfl⟩ := h
    exact ⟨rfl, rfl, Nat.lt_of_not_le hlt⟩

theorem ofQuanta_ne_nan : ofQuanta s num den ≠ nan := by
  rw [ofQuanta]
  split <;> simp

theorem exists_hundred : ∃ q, hundred = finite false q ∧ one ≤ q := by
  have hfinite : hundred.isFinite = true := by decide +kernel
  cases hx : hundred with
  | nan => rw [hx] at hfinite; cases hfinite
  | infinite s => rw [hx] at hfinite; cases hfinite
  | finite s q =>
    rw [hundred, ofInt_eq] at hx
    obtain ⟨hq, hs, -⟩ := lt_beyond_of_ofQuanta hx
    refine ⟨q, by rw [hs]; rfl, ?_⟩
    rw [hq]
    exact one_le_roundQuanta (by decide)

/-- A quotient that is at least `2 ^ 50` quanta is plain, and so is a hundred times it. -/
theorem isPlain_mul_hundred (h : s = true → Nat.pow 2 50 ≤ num / den) :
    (ofQuanta s num den * hundred).IsPlain := by
  obtain ⟨q, hhundred, hq⟩ := exists_hundred
  rw [hhundred]
  have hone := one_pos
  cases hx : ofQuanta s num den with
  | nan => exact absurd hx ofQuanta_ne_nan
  | infinite t =>
    have hq0 : q ≠ 0 := by omega
    have hmul : infinite t * finite false q = infinite (t != false) := if_neg hq0
    rw [hmul]
    exact ⟨by simp, by simp⟩
  | finite t p =>
    obtain ⟨hp, rfl, -⟩ := lt_beyond_of_ofQuanta hx
    have hmul : finite t p * finite false q = ofQuanta (t != false) (p * q) one := rfl
    rw [hmul]
    refine isPlain_ofQuanta fun ht => ?_
    have hp50 := pow_le_roundQuanta (h (by simpa using ht))
    rw [← hp] at hp50
    refine Nat.lt_of_lt_of_le (two_pow_pos 50) (pow_le_roundQuanta ?_)
    rw [Nat.le_div_iff_mul_le hone]
    exact Nat.mul_le_mul hp50 hq

/-- The number of an integer other than zero, divided by a number of the format, is at least
`2 ^ 50` quanta. -/
theorem two_pow_le_div {p q : Nat} (hp : one ≤ p) (hq : 0 < q) (hlt : q < beyond) :
    Nat.pow 2 50 ≤ p * one / q := by
  have hbeyond : Nat.pow 2 50 * beyond = one * one := by
    -- the exponents get names, for the powers are too large to be compared as numbers
    have hsum : 50 + (1024 + 1074) = 1074 + 1074 := by decide
    rw [beyond_eq, one_eq]
    generalize 1024 + 1074 = j at hsum ⊢
    generalize 1074 = k at hsum ⊢
    exact two_pow_mul_eq hsum
  rw [Nat.le_div_iff_mul_le hq]
  calc Nat.pow 2 50 * q
      ≤ Nat.pow 2 50 * beyond := Nat.mul_le_mul_left _ (Nat.le_of_lt hlt)
    _ = one * one := hbeyond
    _ ≤ p * one := Nat.mul_le_mul_right _ hp

theorem lt_zero_finite {t : Bool} {q : Nat} : lt zero (finite t q) = true ↔ t = false ∧ 0 < q := by
  cases t <;> simp [lt, zero, rank, signedQuanta]

/-- The share of an integer in a total, zero or itself the number of an integer, is plain. -/
theorem isPlain_percentOf {total : Binary64} {m n : Int} (ht : total = zero ∨ total = ofInt m)
    (htotal : total.isFinite) (hn : (ofInt n).isFinite) : (percentOf total (ofInt n)).IsPlain := by
  rw [percentOf]
  split
  · next hpos =>
    -- only the number of an integer is greater than zero
    rcases ht with rfl | rfl
    · cases hpos
    · cases hm : ofInt m with
      | nan => rw [hm] at htotal; cases htotal
      | infinite t => rw [hm] at htotal; cases htotal
      | finite t q =>
        cases hx : ofInt n with
        | nan => rw [hx] at hn; cases hn
        | infinite s => rw [hx] at hn; cases hn
        | finite s p =>
          rw [hm] at hpos
          obtain ⟨rfl, hq⟩ := lt_zero_finite.mp hpos
          rw [ofInt_eq] at hm hx
          obtain ⟨-, -, hlt⟩ := lt_beyond_of_ofQuanta hm
          obtain ⟨hp, hs, -⟩ := lt_beyond_of_ofQuanta hx
          have hdiv : finite s p / finite false q = ofQuanta (s != false) (p * one) q :=
            if_neg (Nat.pos_iff_ne_zero.mp hq)
          rw [hdiv]
          refine isPlain_mul_hundred fun hnegative => two_pow_le_div ?_ hq hlt
          rw [Bool.bne_false, hs, decide_eq_true_eq] at hnegative
          rw [hp]
          exact one_le_roundQuanta (by omega)
  · exact isPlain_zero

end Binary64

end Contraction.Number
