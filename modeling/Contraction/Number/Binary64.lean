import Contraction.Number.Rounding

/-!
# Binary numbers of 64 bits

The numbers of the IEEE 754 format binary64 and the arithmetic on them. A finite number is a whole
number of *quanta*, the smallest positive value `2 ^ (-1074)` of the format, so that sums are exact
before they are rounded and two finite numbers compare as integers. Every operation takes the exact
result and rounds it once, to the nearest number of the format and half-way to the even one; what is
too large for the format becomes infinite.
-/

namespace Contraction.Number

/-- A number of the format. The quanta of a finite number are below `Binary64.beyond` and have at
most 53 binary digits before their trailing zeros; zero has a sign too. -/
inductive Binary64 where
  | nan
  | infinite (negative : Bool)
  | finite (negative : Bool) (quanta : Nat)
deriving DecidableEq, Repr, Inhabited

namespace Binary64

/-- How many quanta make one. -/
def one : Nat := Nat.pow 2 1074

/-- The quanta of the least power of two that is too large for the format. -/
def beyond : Nat := Nat.pow 2 (1024 + 1074)

def zero : Binary64 := finite false 0

/-- The quanta nearest to `num / den` among the numbers with 53 binary digits, without a limit. -/
def roundQuanta (num den : Nat) : Nat :=
  let whole := num / den
  if whole < Nat.pow 2 53 then roundHalfEven num den
  else
    let step := Nat.pow 2 (whole.log2 - 52)
    roundHalfEven num (den * step) * step

/-- The number of the format nearest to `num / den` quanta. -/
def ofQuanta (negative : Bool) (num den : Nat) : Binary64 :=
  let quanta := roundQuanta num den
  if beyond ≤ quanta then infinite negative else finite negative quanta

/-- The number of the format nearest to `num / den`. -/
def ofRatio (negative : Bool) (num den : Nat) : Binary64 :=
  ofQuanta negative (num * one) den

def isFinite : Binary64 → Bool
  | finite .. => true
  | _ => false

/-- The value in quanta of a finite number, with its sign. -/
def signedQuanta (negative : Bool) (quanta : Nat) : Int :=
  if negative then -(quanta : Int) else quanta

/-- The number nearest to an integer, unless the integer is too large for the format. -/
def ofInt? (n : Int) : Option Binary64 :=
  let x := ofRatio (n < 0) n.natAbs 1
  if x.isFinite then some x else none

/-- The number nearest to the exact quotient of two integers, unless it is too large for the format.
The divisor is not zero. -/
def quotient? (num den : Int) : Option Binary64 :=
  let x := ofRatio (xor (num < 0) (den < 0)) num.natAbs den.natAbs
  if x.isFinite then some x else none

def neg : Binary64 → Binary64
  | nan => nan
  | infinite s => infinite !s
  | finite s q => finite (!s) q

def add : Binary64 → Binary64 → Binary64
  | nan, _ | _, nan => nan
  | infinite s, infinite t => if s == t then infinite s else nan
  | infinite s, finite .. => infinite s
  | finite .., infinite t => infinite t
  | finite s p, finite t q =>
    let sum := signedQuanta s p + signedQuanta t q
    if sum = 0 then finite (s && t) 0 else ofQuanta (sum < 0) sum.natAbs 1

def sub (x y : Binary64) : Binary64 :=
  add x (neg y)

def mul : Binary64 → Binary64 → Binary64
  | nan, _ | _, nan => nan
  | infinite s, infinite t => infinite (s != t)
  | infinite s, finite t q => if q = 0 then nan else infinite (s != t)
  | finite s p, infinite t => if p = 0 then nan else infinite (s != t)
  | finite s p, finite t q => ofQuanta (s != t) (p * q) one

def div : Binary64 → Binary64 → Binary64
  | nan, _ | _, nan => nan
  | infinite _, infinite _ => nan
  | infinite s, finite t _ => infinite (s != t)
  | finite s _, infinite t => finite (s != t) 0
  | finite s p, finite t q =>
    if q = 0 then if p = 0 then nan else infinite (s != t)
    else ofQuanta (s != t) (p * one) q

instance : Neg Binary64 := ⟨neg⟩
instance : Add Binary64 := ⟨add⟩
instance : Sub Binary64 := ⟨sub⟩
instance : Mul Binary64 := ⟨mul⟩
instance : Div Binary64 := ⟨div⟩

/-- The place of a number that is not NaN on the line of extended integers: a sign of infinity and
the quanta. -/
def rank : Binary64 → Int × Int
  | nan => (0, 0)
  | infinite s => (if s then -1 else 1, 0)
  | finite s q => (0, signedQuanta s q)

/-- Strictly less; never so with a NaN. -/
def lt (x y : Binary64) : Bool :=
  x != nan && y != nan &&
    (x.rank.1 < y.rank.1 || (x.rank.1 == y.rank.1 && x.rank.2 < y.rank.2))

/-- Equal in value: both zeros are equal, and a NaN equals nothing. -/
def eq (x y : Binary64) : Bool :=
  x != nan && y != nan && x.rank == y.rank

/-- The lesser of two numbers, and NaN if either is. -/
def min (x y : Binary64) : Binary64 :=
  if x == nan || y == nan then nan else if lt y x then y else x

/-- The greater of two numbers, and NaN if either is. -/
def max (x y : Binary64) : Binary64 :=
  if x == nan || y == nan then nan else if lt x y then y else x

/-- The least of some numbers; zero if there are none. -/
def least : List Binary64 → Binary64
  | [] => zero
  | x :: xs => xs.foldl min x

/-- The greatest of some numbers; zero if there are none. -/
def greatest : List Binary64 → Binary64
  | [] => zero
  | x :: xs => xs.foldl max x

/-- The 64 bits of the format: sign, eleven bits of exponent, 52 bits of fraction. -/
def toBits : Binary64 → Nat
  | nan => 0x7FF8000000000000
  | infinite s => (if s then Nat.pow 2 63 else 0) + 0x7FF0000000000000
  | finite s q =>
    let shift := q.log2 - 52
    (if s then Nat.pow 2 63 else 0) +
      (if q < Nat.pow 2 53 then q else shift * Nat.pow 2 52 + q / Nat.pow 2 shift)

end Binary64

end Contraction.Number
