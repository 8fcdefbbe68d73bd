import Contraction.Datum

/-!
# Data as numbers

Taking an integer out of a `Datum`, and why that may fail.
-/

namespace Contraction

open Number Text

/-- Why a value is no number of the kind asked for. -/
inductive ConversionFault where
  /-- The text writes no integer. -/
  | notInteger (text : String)
  /-- The text writes no number. -/
  | notNumber (text : String)
  /-- An integer is written with more digits than are read. -/
  | tooManyDigits (digits : Nat)
  /-- An integer has more digits than are written. -/
  | unwritable
  /-- NaN is not an integer. -/
  | notANumber
  /-- The number is infinite, or outside the range of the binary format. -/
  | outOfRange
  /-- A value of this kind stands for no number at all. -/
  | wrongKind (kind : String)

namespace ConversionFault

/-- The front of a quotation that may be long. -/
def shortened (quotation : String) : String :=
  String.ofList (quotation.toList.take 200)

/-- What is said of the number of digits, with a part in the middle on how many there are. -/
def digitsMessage (count : String) : String :=
  "Exceeds the limit (" ++ toString digitLimit ++ " digits) for integer string conversion" ++
    count ++ "; use sys.set_int_max_str_digits() to increase the limit"

def message : ConversionFault → String
  | notInteger text => "invalid literal for int() with base 10: " ++ shortened (quoted text)
  | notNumber text => "could not convert string to float: " ++ quoted text
  | tooManyDigits digits => digitsMessage (": value has " ++ toString digits ++ " digits")
  | unwritable => digitsMessage ""
  | notANumber => "cannot convert float NaN to integer"
  | outOfRange => "number out of range"
  | wrongKind kind =>
    "int() argument must be a string, a bytes-like object or a real number, not '" ++ kind ++ "'"

end ConversionFault

namespace Datum

/-- The kind of a value that stands for no number, as a message names it. -/
def kindName : Datum → String
  | null => "NoneType"
  | bool _ => "bool"
  | int _ => "int"
  | float _ => "float"
  | text _ => "str"
  | list _ => "list"
  | mapping _ => "dict"

/-- The integer part of a finite number: what is behind the point is dropped. -/
def truncate (negative : Bool) (quanta : Nat) : Int :=
  let whole := (quanta / Binary64.one : Nat)
  if negative then -(whole : Int) else whole

/-- The integer that a value stands for. A text is read as a literal, a number with a fraction loses
it. -/
def toInteger : Datum → Except ConversionFault Int
  | bool b => .ok (if b then 1 else 0)
  | int n => .ok n
  | float (.finite s q) => .ok (truncate s q)
  | float (.infinite _) => .error .outOfRange
  | float .nan => .error .notANumber
  | text s =>
    match readInteger s with
    | .ok n => .ok n
    | .error .malformed => .error (.notInteger s)
    | .error (.tooLong digits) => .error (.tooManyDigits digits)
  | value => .error (.wrongKind value.kindName)

/-- The binary number nearest to an integer. -/
def binary64OfInt (n : Int) : Except ConversionFault Binary64 :=
  match Binary64.ofInt? n with
  | some x => .ok x
  | none => .error .outOfRange

/-- The binary number that a value stands for. -/
def toBinary64 : Datum → Except ConversionFault Binary64
  | bool b => .ok (if b then .finite false Binary64.one else .zero)
  | int n => binary64OfInt n
  | float x => .ok x
  | text s =>
    match binary64? s with
    | some x => .ok x
    | none => .error (.notNumber s)
  | value => .error (.wrongKind value.kindName)

end Datum

end Contraction
