import Contraction.Number.Binary64

/-!
# Shares

Percentages of a whole, and where a number lies between the least and the greatest. All arithmetic
is that of `Binary64`, one rounding for each operation in the order written.
-/

namespace Contraction.Number.Binary64

/-- The number nearest to an integer; an integer too large for the format becomes infinite. -/
def ofInt (n : Int) : Binary64 :=
  ofRatio (n < 0) n.natAbs 1

def hundred : Binary64 := ofInt 100

/-- Adds numbers from the left. -/
def sumFrom (start : Binary64) (xs : List Binary64) : Binary64 :=
  xs.foldl add start

/-- Adds numbers of two lists pairwise. -/
def addEach (xs ys : List Binary64) : List Binary64 :=
  xs.zipWith add ys

/-- Adds eights to eight running sums, as long as there are as many, and gives what is left over. -/
def addEights (sums : List Binary64) : List Binary64 → List Binary64 × List Binary64
  | a :: b :: c :: d :: e :: f :: g :: h :: rest =>
    addEights (addEach sums [a, b, c, d, e, f, g, h]) rest
  | rest => (sums, rest)

/-- The eight running sums in pairs, and pairs of pairs. -/
def combineEight : List Binary64 → Binary64
  | [a, b, c, d, e, f, g, h] => ((a + b) + (c + d)) + ((e + f) + (g + h))
  | xs => sumFrom zero xs

/-- The sum of a block: fewer than eight numbers from the left, more with eight running sums. -/
def sumBlock (xs : List Binary64) : Binary64 :=
  if xs.length < 8 then
    match xs with
    | [] => zero
    | x :: rest => sumFrom x rest
  else
    let (sums, rest) := addEights (xs.take 8) (xs.drop 8)
    sumFrom (combineEight sums) rest

/-- The sum of some numbers. More than 128 are cut in two, the first part a multiple of eight. -/
def sum (xs : List Binary64) : Binary64 :=
  if _h : xs.length ≤ 128 then sumBlock xs
  else
    let cut := xs.length / 2 - xs.length / 2 % 8
    sum (xs.take cut) + sum (xs.drop cut)
termination_by xs.length
decreasing_by
  · simp only [List.length_take]; omega
  · simp only [List.length_drop]; omega

/-- How much of a total, in percent. Nothing is a share of a total that is not positive. -/
def percentOf (total x : Binary64) : Binary64 :=
  if lt zero total then x / total * hundred else zero

/-- The least and the greatest of some numbers. -/
structure Span where
  low : Binary64
  high : Binary64
deriving DecidableEq, Repr

/-- The span of some numbers. -/
def spanOf (xs : List Binary64) : Span :=
  ⟨least xs, greatest xs⟩

/-- How far a number lies from the least towards the greatest, in percent; zero where they are
equal. -/
def Span.percent (span : Span) (x : Binary64) : Binary64 :=
  if eq span.low span.high then zero else (x - span.low) / (span.high - span.low) * hundred

end Contraction.Number.Binary64
