import Contraction.Number.Binary64
import Contraction.Number.Grouped

/-!
# Decimal text of binary numbers

Two ways to write a `Binary64` in base ten. `shortest` finds the fewest digits that read back as the
same number, and of those the nearest; `plain` lays them out. `fixed` rounds the exact value to a
given number of places.
-/

namespace Contraction.Number

/-- A positive decimal number `digits * 10 ^ exponent`. -/
structure Decimal where
  digits : Nat
  exponent : Int
deriving DecidableEq, Repr

namespace Binary64

/-- The two ends, in quarters of a quantum, of the interval of values that round to so many quanta,
and whether the ends belong to it: they do when the last binary digit kept is even. -/
def readBack (quanta : Nat) : Nat × Nat × Bool :=
  let step := if quanta < Nat.pow 2 53 then 1 else Nat.pow 2 (quanta.log2 - 52)
  let halfBelow := if quanta = step * Nat.pow 2 52 && 1 < step then step else 2 * step
  (4 * quanta - halfBelow, 4 * quanta + 2 * step, quanta / step % 2 = 0)

/-- The numerator and the denominator of `10 ^ k`. -/
def powerOfTen (k : Int) : Nat × Nat :=
  if k < 0 then (1, Nat.pow 10 k.natAbs) else (Nat.pow 10 k.natAbs, 1)

/-- The largest `k` with `10 ^ k` at most the value of so many quanta, not zero. The estimate from
the binary logarithm is at most one too low. -/
def decimalExponent (quanta : Nat) : Int :=
  let estimate := ((quanta.log2 : Int) - 1074) * 30103 / 100000
  let atMost (k : Int) : Bool :=
    let (num, den) := powerOfTen k
    num * one ≤ quanta * den
  if atMost (estimate + 1) then estimate + 1
  else if atMost estimate then estimate
  else estimate - 1

/-- The point nearest to the value on the grid of the multiples of `10 ^ k`, if one of the two
beside the value reads back. -/
def nearestOnGrid? (quanta : Nat) (k : Int) : Option Nat :=
  let (num, den) := powerOfTen k
  let scaled := quanta * den
  let unit := num * one
  let below := scaled / unit
  let (low, high, closed) := readBack quanta
  let readsBack (point : Nat) : Bool :=
    let quarters := 4 * point * unit
    if closed then low * den ≤ quarters && quarters ≤ high * den
    else low * den < quarters && quarters < high * den
  let nearest := roundHalfEven scaled unit
  let other := if nearest = below then below + 1 else below
  if readsBack nearest then some nearest
  else if readsBack other then some other
  else none

/-- The first number of digits, of `tries` in turn, whose grid has a point that reads back. -/
def shortestFrom (quanta : Nat) (top : Int) : Nat → Nat → Decimal
  | 0, count => ⟨roundHalfEven (quanta * (powerOfTen (top - count)).2)
      ((powerOfTen (top - count)).1 * one), top - count⟩
  | tries + 1, count =>
    match nearestOnGrid? quanta (top - count) with
    | some digits => ⟨digits, top - count⟩
    | none => shortestFrom quanta top tries (count + 1)

/-- The fewest digits that read back as so many quanta, not zero. Seventeen always do. -/
def shortest (quanta : Nat) : Decimal :=
  shortestFrom quanta (decimalExponent quanta) 16 0

/-- Significant digits laid out around the point that stands behind the first `point` of them. -/
def positional (digits : List Char) (point : Int) : List Char :=
  if point ≤ 0 then '0' :: '.' :: List.replicate point.natAbs '0' ++ digits
  else
    let count := point.natAbs
    if digits.length ≤ count then
      digits ++ List.replicate (count - digits.length) '0' ++ ['.', '0']
    else digits.take count ++ '.' :: digits.drop count

/-- Significant digits with one before the point and a power of ten of at least two digits. -/
def scientific (digits : List Char) (power : Int) : List Char :=
  let fraction := digits.drop 1
  let exponent := Nat.toDigits 10 power.natAbs
  digits.take 1 ++ (if fraction.isEmpty then [] else '.' :: fraction) ++
    ['e', if power < 0 then '-' else '+'] ++
    List.replicate (2 - exponent.length) '0' ++ exponent

/-- Digits without the zeros at their end. -/
def trimZeros (digits : List Char) : List Char :=
  (digits.reverse.dropWhile (· == '0')).reverse

/-- The shortest text that reads back: positional from `10 ^ (-4)` up to below `10 ^ 16`, with at
least one digit behind the point; beyond that with a power of ten. -/
def plain : Binary64 → String
  | nan => "nan"
  | infinite s => if s then "-inf" else "inf"
  | finite s q =>
    let sign := if s then "-" else ""
    if q = 0 then sign ++ "0.0"
    else
      let value := shortest q
      let written := Nat.toDigits 10 value.digits
      let power := value.exponent + written.length - 1
      let digits := trimZeros written
      sign ++ String.ofList
        (if -4 ≤ power && power < 16 then positional digits (power + 1)
        else scientific digits power)

/-- The places behind which every digit of a binary number is zero. -/
def exactPlaces : Nat := 1074

/-- The exact value rounded to so many places, with commas between groups of three digits before the
point. The sign is kept even of what rounds to zero. -/
def fixed (places : Nat) : Binary64 → String
  | nan => "nan"
  | infinite s => if s then "-inf" else "inf"
  | finite s q =>
    let count := Nat.min places exactPlaces
    let scaled := roundHalfEven (q * Nat.pow 10 count) one
    let fraction := Nat.toDigits 10 (scaled % Nat.pow 10 count)
    let zeros (n : Nat) : List Char := List.replicate n '0'
    (if s then "-" else "") ++ groupedNat (scaled / Nat.pow 10 count) ++
      (if places = 0 then ""
      else "." ++ String.ofList
        (zeros (count - fraction.length) ++ fraction ++ zeros (places - count)))

end Binary64

end Contraction.Number
