import Contraction.Datum.Conversion
import Contraction.Measurement.Settings
import Contraction.Number.Decimal

/-!
# Figures

How a report shows numbers: whole ones in groups of three digits, others with a fixed number of
places, a number of bytes in a unit, and the strides of a tensor. A dash stands for what is not
known. The number of places may come from outside, and then it is read from its written form.
-/

namespace Contraction

open Number Text

/-- Why a value cannot be shown. -/
inductive FigureFault where
  | conversion (fault : ConversionFault)
  /-- There is no such unit. -/
  | unsupportedUnit (given : Datum)
  /-- The number of places does not begin with a digit. -/
  | missingPrecision
  /-- There is more in the number of places than its digits. -/
  | invalidPrecision (written : String)
  /-- The number of places is outside the range of machine words. -/
  | precisionOverflow
  /-- There are more places than can be written. -/
  | precisionTooBig
  /-- There are not as many strides as labels. -/
  | lengthMismatch
  /-- The value is none that can be divided. -/
  | notDivisible

def FigureFault.message : FigureFault → String
  | conversion fault => fault.message
  | unsupportedUnit given => "Unsupported size unit: " ++ given.plainText
  | missingPrecision => "Format specifier missing precision"
  | invalidPrecision written =>
    "Invalid format specifier ',." ++ written ++ "f' for object of type 'float'"
  | precisionOverflow => "Too many decimal digits in format string"
  | precisionTooBig => "precision too big"
  | lengthMismatch => "labels and strides must have the same length"
  | notDivisible => "not a number of bytes"

namespace Figure

/-- The places of a number that is not whole. -/
def places : Nat := 2

/-- A whole number, if it is known. -/
def count : Option Int → String
  | none => "-"
  | some n => groupedInt n

/-- A number that is not whole, if it is known. -/
def share : Option Binary64 → String
  | none => "-"
  | some x => x.fixed places

/-- The number of places that the written form of a value gives. -/
def placesIn (given : Datum) : Except FigureFault Nat :=
  let written := given.plainText
  let (ds, rest) := leadingDigits written.toList
  let n := ofDigits ds
  if ds.isEmpty then .error .missingPrecision
  else if Nat.pow 2 63 ≤ n then .error .precisionOverflow
  else if !rest.isEmpty then .error (.invalidPrecision written)
  else if Nat.pow 2 31 ≤ n then .error .precisionTooBig
  else .ok n

/-- Any value that stands for a number. The places matter only to one that is not whole. -/
def number (value places : Datum) : Except FigureFault String :=
  match value with
  | .null => .ok "-"
  | .int n => .ok (groupedInt n)
  | .bool b => .ok (if b then "1" else "0")
  | value =>
    match value.toBinary64 with
    | .error fault => .error (.conversion fault)
    | .ok x => (placesIn places).map x.fixed

/-- The exact quotient of a value by a number, rounded once. -/
def divide (value : Datum) (divisor : Nat) : Except FigureFault Binary64 :=
  let whole (n : Int) : Except FigureFault Binary64 :=
    match Binary64.quotient? n divisor with
    | some x => .ok x
    | none => .error (.conversion .outOfRange)
  match value with
  | .bool b => whole (if b then 1 else 0)
  | .int n => whole n
  | .float x => .ok (x / Binary64.ofRatio false divisor 1)
  | _ => .error .notDivisible

/-- A number of bytes in a unit. Single bytes are shown as a whole number. -/
def bytesIn (unit : SizeUnit) (value : Datum) : Except FigureFault String :=
  match unit with
  | .bytes =>
    match value.toInteger with
    | .ok n => .ok (groupedInt n ++ " " ++ unit.name)
    | .error fault => .error (.conversion fault)
  | unit => (divide value unit.divisor).map fun x => x.fixed places ++ " " ++ unit.name

/-- A number of bytes in the unit with a name, if it is known. -/
def size (value unit : Datum) : Except FigureFault String :=
  match value, unit with
  | .null, _ => .ok "-"
  | value, .text name =>
    match SizeUnit.ofName? name with
    | some unit => bytesIn unit value
    | none => .error (.unsupportedUnit unit)
  | _, .list _ | _, .mapping _ => .error .notDivisible
  | _, unit => .error (.unsupportedUnit unit)

/-- A label with its stride; a stride of one is the unit. -/
def stride (label : String) (value : Datum) : Except FigureFault String :=
  if value.equalsInt 1 then .ok (label ++ "=unit")
  else
    match value.toInteger with
    | .ok n => .ok (label ++ "=" ++ groupedInt n)
    | .error fault => .error (.conversion fault)

/-- The labels of a tensor with their strides. -/
def strides (labels : List String) (values : List Datum) : Except FigureFault String :=
  if labels.length = values.length then do
    let parts ← (labels.zip values).mapM fun (label, value) => stride label value
    return if parts.isEmpty then "-" else " ".intercalate parts
  else .error .lengthMismatch

end Figure

end Contraction
