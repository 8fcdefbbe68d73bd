import Contraction.Number.Binary64
import Contraction.Text.Characters

/-!
# Number literals

Reading an integer or a binary number from a text. Blanks around the literal are left out, the
digits may be those of any script, and one underscore may stand between two digits. An integer has
no more digits than `digitLimit`, with the zeros in front of it.
-/

namespace Contraction.Number

open Text

/-- The blanks that may stand around a number: all but the information separators. -/
def isPadding (c : Char) : Bool :=
  isBlank c && !(0x1C ≤ c.toNat && c.toNat ≤ 0x1F)

/-- The digits at the front and what follows them. An underscore between two digits is left out;
`afterDigit` says that a digit stands just before. -/
def takeDigits (afterDigit : Bool) : List Char → List Nat × List Char
  | [] => ([], [])
  | c :: rest =>
    match digitValue? c with
    | some d =>
      let (ds, left) := takeDigits true rest
      (d :: ds, left)
    | none =>
      if afterDigit && c == '_' && rest.head?.any isDecimalDigit then takeDigits false rest
      else ([], c :: rest)

/-- An optional sign, true for minus, and what follows. -/
def takeSign : List Char → Bool × List Char
  | '-' :: rest => (true, rest)
  | '+' :: rest => (false, rest)
  | rest => (false, rest)

/-- Why a text writes no integer. -/
inductive LiteralFault where
  /-- It is no integer literal. -/
  | malformed
  /-- It has more digits than are read. -/
  | tooLong (digits : Nat)
deriving DecidableEq, Repr

/-- The integer that the whole text writes in base ten. Digits beyond the limit are found before
what stands behind them, an underscore without its digits excepted. -/
def readInteger (text : String) : Except LiteralFault Int :=
  let (negative, unsigned) := takeSign (trimList isPadding text.toList)
  let (ds, rest) := takeDigits false unsigned
  if ds.isEmpty || rest.head? = some '_' then .error .malformed
  else if digitLimit < ds.length then .error (.tooLong ds.length)
  else if rest.isEmpty then .ok (if negative then -(ofDigits ds : Int) else ofDigits ds)
  else .error .malformed

/-- The integer that a text writes, if it writes one. -/
def integer? (text : String) : Option Int :=
  (readInteger text).toOption

/-- The exponent at the end of a binary number's literal: a letter e, an optional sign and digits.
Nothing at all is the exponent zero. -/
def exponent? : List Char → Option Int
  | [] => some 0
  | e :: rest =>
    if e == 'e' || e == 'E' then
      let (negative, unsigned) := takeSign rest
      match takeDigits false unsigned with
      | ([], _) => none
      | (ds, []) => some (if negative then -(ofDigits ds : Int) else ofDigits ds)
      | _ => none
    else none

/-- The number nearest to the digits times a power of ten. A power far outside the format decides
the answer before it is raised. -/
def ofDecimal (negative : Bool) (ds : List Nat) (exponent : Int) : Binary64 :=
  let n := ofDigits ds
  if n = 0 then .finite negative 0
  else if 400 < exponent + (ds.dropWhile (· == 0)).length then .infinite negative
  else if exponent + ds.length < -400 then .finite negative 0
  else if exponent < 0 then .ofRatio negative n (Nat.pow 10 exponent.natAbs)
  else .ofRatio negative (n * Nat.pow 10 exponent.natAbs) 1

/-- The names of the numbers that have no digits, without their sign. -/
def named? (negative : Bool) (cs : List Char) : Option Binary64 :=
  match String.ofList (cs.map Char.toLower) with
  | "inf" | "infinity" => some (.infinite negative)
  | "nan" => some .nan
  | _ => none

/-- The binary number nearest to the value that the whole text writes. -/
def binary64? (text : String) : Option Binary64 :=
  let (negative, unsigned) := takeSign (trimList isPadding text.toList)
  match named? negative unsigned with
  | some x => some x
  | none =>
    let (whole, afterWhole) := takeDigits false unsigned
    let (fraction, afterFraction) :=
      match afterWhole with
      | '.' :: rest => takeDigits false rest
      | rest => ([], rest)
    if whole.isEmpty && fraction.isEmpty then none
    else
      (exponent? afterFraction).map fun power =>
        ofDecimal negative (whole ++ fraction) (power - fraction.length)

end Contraction.Number
