import Contraction.Number.Decimal
import Contraction.Number.Literal
import Contraction.Text.Quoted

/-!
# Data

A size, a setting or a patch comes from outside and may be anything that a document can hold. A
`Datum` is such a value, and this module says how a message shows it and when it counts as nothing.

A label names a dimension of a tensor. Where labels come from a caller one may be missing: an
expression cannot write it, no table has a size for it, and no contraction can place it.
-/

namespace Contraction

open Number Text

/-- A value as a document holds it. A mapping keeps the order of its entries. -/
inductive Datum where
  | null
  | bool (b : Bool)
  | int (n : Int)
  | float (x : Binary64)
  | text (s : String)
  | list (items : List Datum)
  | mapping (entries : List (String × Datum))
deriving Repr, Inhabited

namespace Datum

mutual

/-- The value as a message shows it: texts in quotes, lists in brackets, mappings in braces. -/
def shown : Datum → String
  | null => "None"
  | bool b => if b then "True" else "False"
  | int n => toString n
  | float x => x.plain
  | text s => quoted s
  | list items => "[" ++ ", ".intercalate (shownItems items) ++ "]"
  | mapping entries => "\x7b" ++ ", ".intercalate (shownEntries entries) ++ "\x7d"

def shownItems : List Datum → List String
  | [] => []
  | item :: rest => shown item :: shownItems rest

def shownEntries : List (String × Datum) → List String
  | [] => []
  | (key, value) :: rest => (quoted key ++ ": " ++ shown value) :: shownEntries rest

end

/-- The value as plain text: a text stands for itself, all else is written as a message shows it. -/
def plainText : Datum → String
  | text s => s
  | value => value.shown

/-- The text that a value is. -/
def text? : Datum → Option String
  | text s => some s
  | _ => none

/-- A list or a mapping. -/
def holdsItems : Datum → Bool
  | list _ | mapping _ => true
  | _ => false

/-- A value that counts as missing: null, false, zero and what is empty. -/
def isVoid : Datum → Bool
  | null => true
  | bool b => !b
  | int n => n == 0
  | float x => x.eq Binary64.zero
  | text s => s.isEmpty
  | list items => items.isEmpty
  | mapping entries => entries.isEmpty

/-- Whether a number is below zero; true and false are not. What is no number is neither. -/
def isNegative? : Datum → Option Bool
  | bool _ => some false
  | int n => some (n < 0)
  | float (.finite s q) => some (s && q ≠ 0)
  | float (.infinite s) => some s
  | float .nan => some false
  | _ => none

/-- Equal to an integer as a number; true and false count as one and zero. -/
def equalsInt (value : Datum) (n : Int) : Bool :=
  match value with
  | bool b => n == if b then 1 else 0
  | int m => m == n
  | float (.finite s q) => Binary64.signedQuanta s q == n * Binary64.one
  | _ => false

end Datum

/-- A label where it may also be missing. -/
abbrev Label := Option String

namespace Label

/-- A label as a message shows it. -/
def shown : Label → String
  | none => "None"
  | some name => Text.quoted name

/-- A label as plain text. -/
def plainText : Label → String
  | none => "None"
  | some name => name

end Label

end Contraction
