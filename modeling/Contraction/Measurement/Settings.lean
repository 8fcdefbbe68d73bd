import Contraction.Datum.Conversion
import Contraction.Table
import Contraction.Text.Characters

/-!
# Settings

What the measures of a plan depend on besides the sizes of its labels. `Settings` are what a caller
asks for and may hold anything; `check` turns them into a `Config`, or says why they cannot be used.
-/

namespace Contraction

open Text

/-- A unit in which numbers of bytes are shown. -/
inductive SizeUnit where
  | bytes
  | kib
  | mib
deriving DecidableEq, Repr, Inhabited

namespace SizeUnit

def all : List SizeUnit := [bytes, kib, mib]

def name : SizeUnit → String
  | bytes => "Bytes"
  | kib => "KiB"
  | mib => "MiB"

/-- How many bytes make one. -/
def divisor : SizeUnit → Nat
  | bytes => 1
  | kib => 1024
  | mib => 1024 * 1024

/-- The unit with exactly this name. -/
def ofName? (text : String) : Option SizeUnit :=
  all.find? (·.name == text)

/-- The unit with this name in upper or lower case. -/
def ofAnyCase? (text : String) : Option SizeUnit :=
  all.find? fun unit => lower unit.name == lower text

end SizeUnit

/-- The size that a label has when nothing else is said. -/
def defaultIndexSize : Int := 2

/-- Settings or sizes that cannot be used. -/
inductive SettingError where
  /-- An element has at least one byte. -/
  | elementBytes (given : Datum)
  /-- The size of a label that is not in the table is at least one. -/
  | defaultSize (given : Datum)
  /-- There is no such unit. -/
  | unit (given : Datum)
  /-- The size of a label is an integer and at least one. -/
  | indexSize (label : String) (given : Datum)
  /-- A setting is not known, or its value is no number. -/
  | invalidSetting (reason : String)

def SettingError.message : SettingError → String
  | elementBytes given => "element_bytes must be positive; received " ++ given.plainText
  | defaultSize given => "default_index_size must be positive; received " ++ given.plainText
  | unit given => "Unsupported size unit: " ++ given.plainText
  | indexSize label given =>
    "Index size for " ++ quoted label ++ " must be a positive integer; received " ++ given.shown
  | invalidSetting reason => "Invalid metrics setting: " ++ reason

/-- Settings that can be used. -/
structure Config where
  /-- Bytes of one element of a tensor. -/
  elementBytes : Int := 4
  /-- The size of a label that is not in the table. -/
  defaultSize : Int := defaultIndexSize
  /-- The unit in which a report shows numbers of bytes. -/
  unit : SizeUnit := .kib
deriving DecidableEq, Repr, Inhabited

/-- Settings as a caller gives them. -/
structure Settings where
  elementBytes : Datum := .int 4
  defaultSize : Datum := .int defaultIndexSize
  unit : Datum := .text SizeUnit.kib.name

/-- Why settings cannot be used. -/
inductive SettingsFault where
  /-- There is no setting with the name. -/
  | unknown (name : String)
  /-- A value is no number. -/
  | conversion (fault : ConversionFault)
  | unusable (error : SettingError)

/-- What is said of a setting that is not known. -/
def unknownSettingMessage (name : String) : String :=
  "MetricsConfig.__init__() got an unexpected keyword argument '" ++ name ++ "'"

def SettingsFault.message : SettingsFault → String
  | unknown name => unknownSettingMessage name
  | conversion fault => fault.message
  | unusable error => error.message

namespace Settings

/-- The settings that a configuration was made of. -/
def ofConfig (c : Config) : Settings :=
  { elementBytes := .int c.elementBytes
    defaultSize := .int c.defaultSize
    unit := .text c.unit.name }

/-- Sets one setting by name. -/
def set? (s : Settings) (name : String) (value : Datum) : Option Settings :=
  match name with
  | "element_bytes" => some { s with elementBytes := value }
  | "default_index_size" => some { s with defaultSize := value }
  | "size_unit" => some { s with unit := value }
  | _ => none

/-- Sets settings by name; the first unknown name is refused. -/
def change (s : Settings) (changes : List (String × Datum)) : Except SettingsFault Settings :=
  changes.foldlM (fun s (name, value) =>
    match s.set? name value with
    | some s => .ok s
    | none => .error (.unknown name)) s

/-- A number that must be positive. -/
def positive (given : Datum) (refuse : Datum → SettingError) : Except SettingsFault Int :=
  match given.toInteger with
  | .error fault => .error (.conversion fault)
  | .ok n => if n ≤ 0 then .error (.unusable (refuse given)) else .ok n

/-- The configuration that the settings ask for. -/
def check (s : Settings) : Except SettingsFault Config := do
  let elementBytes ← positive s.elementBytes .elementBytes
  let defaultSize ← positive s.defaultSize .defaultSize
  match SizeUnit.ofAnyCase? s.unit.plainText with
  | some unit => return { elementBytes, defaultSize, unit }
  | none => .error (.unusable (.unit s.unit))

end Settings

end Contraction
