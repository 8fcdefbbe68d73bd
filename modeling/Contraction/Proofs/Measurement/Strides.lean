import Contraction.Measurement.Cost
import Contraction.Proofs.Except
import Mathlib

/-!
# Positions and strides

A position in a tensor has a place along each of its dimensions, and the strides tell how far from
the first element it lies. Where the sizes are positive, the stride of a dimension is the product of
the sizes behind it, so the offset of a position is a number whose digits are the places and whose
bases are the sizes.

* `offset_lt_iff` — offsets are in the order in which positions are compared place by place
* `exists_position` — every number below the number of elements is the offset of a position
* `Sizing.bijOn_offset` — both, for the sizes that labels have by a table
-/

namespace Contraction

/-- A position has a place along each dimension of a tensor with some sizes. -/
inductive IsPosition : List Int → List Int → Prop where
  | nil : IsPosition [] []
  | cons {size place : Int} {sizes places : List Int} (low : 0 ≤ place) (high : place < size)
      (rest : IsPosition sizes places) : IsPosition (size :: sizes) (place :: places)

/-- How far a position lies from the first element of a tensor with some strides. -/
def offset (strides places : List Int) : Int :=
  (places.zipWith (· * ·) strides).sum

variable {sizes x y : List Int} {size place n : Int}

/-- Where there is a position, no size is zero. -/
theorem IsPosition.sizes_pos (h : IsPosition sizes x) : ∀ size ∈ sizes, 0 < size := by
  induction h with
  | nil => simp
  | cons low high rest ih => exact List.forall_mem_cons.mpr ⟨low.trans_lt high, ih⟩

/-! ## Strides as products -/

theorem product_cons : product (size :: sizes) = size * product sizes :=
  rfl

theorem stridesAndNext_eq (h : ∀ size ∈ sizes, 0 < size) :
    stridesAndNext sizes = (strides sizes, product sizes) := by
  induction sizes with
  | nil => rfl
  | cons size sizes ih =>
    obtain ⟨hsize, hsizes⟩ := List.forall_mem_cons.mp h
    have hone : max 1 size = size := max_eq_right hsize
    rw [strides, stridesAndNext, ih hsizes, product_cons, hone, Int.mul_comm]

/-- The stride of a dimension is the product of the sizes behind it. -/
theorem strides_cons (h : ∀ size ∈ sizes, 0 < size) :
    strides (size :: sizes) = product sizes :: strides sizes := by
  rw [strides, stridesAndNext, stridesAndNext_eq h]

theorem length_strides (sizes : List Int) : (strides sizes).length = sizes.length := by
  induction sizes with
  | nil => rfl
  | cons size sizes ih => exact congrArg (· + 1) ih

theorem offset_cons (h : ∀ size ∈ sizes, 0 < size) :
    offset (strides (size :: sizes)) (place :: x) =
      place * product sizes + offset (strides sizes) x := by
  rw [strides_cons h]
  exact List.sum_cons

/-! ## Numbers of two digits -/

section Digits

variable {base i j u v : Int}

/-- A first digit that is smaller leaves room for any last one. -/
theorem mul_add_lt_mul (hu : 0 ≤ u) (hbase : u < base) (h : i < j) : i * base + u < j * base := by
  calc i * base + u < i * base + base := by omega
    _ = (i + 1) * base := by rw [Int.add_mul, Int.one_mul]
    _ ≤ j * base := Int.mul_le_mul_of_nonneg_right h (hu.trans hbase.le)

/-- Numbers are compared by their first digits, and then by their last ones. -/
theorem mul_add_lt_iff (hu : 0 ≤ u) (hubase : u < base) (hv : 0 ≤ v) (hvbase : v < base) :
    i * base + u < j * base + v ↔ i < j ∨ i = j ∧ u < v := by
  rcases Int.lt_trichotomy i j with hlt | rfl | hgt
  · have hroom := mul_add_lt_mul hu hubase hlt
    exact iff_of_true (by omega) (Or.inl hlt)
  · simp
  · have hroom := mul_add_lt_mul hv hvbase hgt
    exact iff_of_false (by omega) (by omega)

end Digits

/-! ## Offsets -/

/-- The offset of a position is below the number of elements. -/
theorem offset_mem (h : IsPosition sizes x) :
    0 ≤ offset (strides sizes) x ∧ offset (strides sizes) x < product sizes := by
  induction h with
  | nil => decide
  | @cons size place sizes x low high rest ih =>
    obtain ⟨hlow, hhigh⟩ := ih
    rw [offset_cons rest.sizes_pos, product_cons]
    have hfirst : 0 ≤ place * product sizes := Int.mul_nonneg low (hlow.trans hhigh.le)
    exact ⟨by omega, mul_add_lt_mul hlow hhigh high⟩

/-- Positions are in the order of their offsets, the last place varying fastest. -/
theorem offset_lt_iff (hx : IsPosition sizes x) (hy : IsPosition sizes y) :
    offset (strides sizes) x < offset (strides sizes) y ↔ List.Lex (· < ·) x y := by
  induction hx generalizing y with
  | nil =>
    cases hy
    simp [offset]
  | cons low high rest ih =>
    cases hy with
    | cons low' high' rest' =>
      obtain ⟨hxlow, hxhigh⟩ := offset_mem rest
      obtain ⟨hylow, hyhigh⟩ := offset_mem rest'
      rw [offset_cons rest.sizes_pos, offset_cons rest.sizes_pos,
        mul_add_lt_iff hxlow hxhigh hylow hyhigh, ih rest', List.cons_lex_cons_iff]

/-- Every number below the number of elements is an offset: its places are found by division, the
first one first. -/
theorem exists_position (h : ∀ size ∈ sizes, 0 < size) (hlow : 0 ≤ n) (hhigh : n < product sizes) :
    ∃ x, IsPosition sizes x ∧ offset (strides sizes) x = n := by
  induction sizes generalizing n with
  | nil =>
    have hone : n < 1 := hhigh
    obtain rfl : n = 0 := by omega
    exact ⟨[], .nil, rfl⟩
  | cons size sizes ih =>
    obtain ⟨hsize, hsizes⟩ := List.forall_mem_cons.mp h
    have hproduct : 0 < product sizes := List.prod_pos hsizes
    obtain ⟨x, hx, hoffset⟩ := ih hsizes (Int.emod_nonneg n hproduct.ne')
      (Int.emod_lt_of_pos n hproduct)
    refine ⟨n / product sizes :: x, .cons (Int.ediv_nonneg hlow hproduct.le)
      (Int.ediv_lt_of_lt_mul hproduct hhigh) hx, ?_⟩
    rw [offset_cons hsizes, hoffset]
    exact Int.ediv_mul_add_emod n (product sizes)

/-- Positions with the same offset are equal, as none comes before the other. -/
theorem offset_injOn : Set.InjOn (offset (strides sizes)) {x | IsPosition sizes x} := by
  intro x hx y hy heq
  have hless : ¬List.Lex (· < ·) x y := mt (offset_lt_iff hx hy).mpr heq.not_lt
  have hgreater : ¬List.Lex (· < ·) y x := mt (offset_lt_iff hy hx).mpr heq.not_gt
  exact Std.Trichotomous.trichotomous x y hless hgreater

theorem strides_bijOn (h : ∀ size ∈ sizes, 0 < size) :
    Set.BijOn (offset (strides sizes)) {x | IsPosition sizes x} (Set.Ico 0 (product sizes)) :=
  ⟨fun _ hx => offset_mem hx, offset_injOn, fun _ hn => exists_position h hn.1 hn.2⟩

/-! ## Sizes of labels -/

namespace Sizing

variable {sizing : Sizing} {labels : List Label}

theorem exists_sizes (h : ∀ label ∈ labels, ∃ n, sizing label = .ok n ∧ 0 < n) :
    ∃ sizes : List Int, labels.map sizing = sizes.map .ok ∧ ∀ size ∈ sizes, 0 < size := by
  induction labels with
  | nil => exact ⟨[], rfl, by simp⟩
  | cons label labels ih =>
    obtain ⟨⟨size, hsize, hpos⟩, hlabels⟩ := List.forall_mem_cons.mp h
    obtain ⟨sizes, hsizes, hall⟩ := ih hlabels
    exact ⟨size :: sizes, by rw [List.map_cons, List.map_cons, hsize, hsizes],
      List.forall_mem_cons.mpr ⟨hpos, hall⟩⟩

theorem product_of_map (h : labels.map sizing = sizes.map .ok) :
    sizing.product labels = .ok (Contraction.product sizes) := by
  rw [Sizing.product, mapM_eq_ok.mpr h]
  rfl

theorem strides_of_map (h : labels.map sizing = sizes.map .ok) :
    sizing.strides labels = .ok (Contraction.strides sizes) := by
  -- the sizes are looked up from the last label on and then turned round again
  have hreverse : labels.reverse.map sizing = sizes.reverse.map .ok := by
    rw [List.map_reverse, List.map_reverse, h]
  rw [Sizing.strides, mapM_eq_ok.mpr hreverse]
  exact congrArg (fun sizes => Except.ok (Contraction.strides sizes)) sizes.reverse_reverse

/-- Where the labels of a tensor have positive sizes by a table and a default, the strides number
its elements row by row: there is one for each label, the offsets of the positions are the numbers
below the product of the sizes, each of one position, and they are in the lexicographic order of the
positions. -/
theorem bijOn_offset (table : Table Datum) (default : Datum) (labels : List Label)
    (h : ∀ label ∈ labels, ∃ n, ofTable table default label = .ok n ∧ 0 < n) :
    ∃ (sizes strides : List Int) (count : Int),
      labels.map (ofTable table default) = sizes.map .ok ∧
      (ofTable table default).strides labels = .ok strides ∧ strides.length = labels.length ∧
      (ofTable table default).product labels = .ok count ∧
      Set.BijOn (offset strides) {x | IsPosition sizes x} (Set.Ico 0 count) ∧
      ∀ x y, IsPosition sizes x → IsPosition sizes y →
        (offset strides x < offset strides y ↔ List.Lex (· < ·) x y) := by
  obtain ⟨sizes, hsizes, hpos⟩ := exists_sizes h
  have hlength : sizes.length = labels.length := by
    simpa using (congrArg List.length hsizes).symm
  refine ⟨sizes, _, _, hsizes, strides_of_map hsizes, ?_, product_of_map hsizes,
    strides_bijOn hpos, fun x y hx hy => offset_lt_iff hx hy⟩
  rw [length_strides, hlength]

/-- A label that comes twice is two dimensions, and one that is not in the table has the default:
with the sizes 3, 2 and 3, the last of 18 positions is the one with the last places. -/
theorem bijOn_offset_repeated :
    let sizing := ofTable (.ofPairs [("i", .int 3)]) (.int 2)
    let labels := [some "i", some "j", some "i"]
    sizing.strides labels = .ok [6, 3, 1] ∧
      Set.BijOn (offset [6, 3, 1]) {x | IsPosition [3, 2, 3] x} (Set.Ico 0 18) ∧
      offset [6, 3, 1] [2, 1, 2] = 17 := by
  intro sizing labels
  have hlabels : ∀ label ∈ labels, ∃ n, sizing label = .ok n ∧ 0 < n := by
    intro label hlabel
    simp only [labels, List.mem_cons, List.not_mem_nil, or_false] at hlabel
    rcases hlabel with rfl | rfl | rfl
    · exact ⟨3, rfl, by decide⟩
    · exact ⟨2, rfl, by decide⟩
    · exact ⟨3, rfl, by decide⟩
  obtain ⟨sizes, strides, count, hsizes, hstrides, -, hcount, hbijective, -⟩ :=
    bijOn_offset (.ofPairs [("i", .int 3)]) (.int 2) labels hlabels
  have hmap : [3, 2, 3].map Except.ok = sizes.map (Except.ok (ε := ConversionFault)) := hsizes
  obtain rfl : [3, 2, 3] = sizes := List.map_injective_iff.mpr (fun _ _ => Except.ok.inj) hmap
  obtain rfl : [6, 3, 1] = strides := Except.ok.inj hstrides
  obtain rfl : 18 = count := Except.ok.inj hcount
  exact ⟨hstrides, hbijective, by decide⟩

end Sizing

end Contraction
