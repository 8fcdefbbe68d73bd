import Contraction.Datum

/-!
# Data as a document

A `Datum` in the notation of JSON, two columns of indentation a level. An empty list or mapping
stays on one line, all text is ASCII, and numbers outside the notation are written by name.
-/

namespace Contraction.Datum

open Number Text

/-- A number with a point, or the name of one that has no digits. -/
def documentNumber : Binary64 → String
  | .nan => "NaN"
  | .infinite s => if s then "-Infinity" else "Infinity"
  | x => x.plain

/-- The end of a line and the indentation of the next. -/
def lineBreak (level : Nat) : String :=
  "\n" ++ String.ofList (List.replicate (2 * level) ' ')

/-- Items between two brackets, one a line. -/
def block (level : Nat) (opening closing : String) (items : List String) : String :=
  if items.isEmpty then opening ++ closing
  else
    opening ++ lineBreak (level + 1) ++ ("," ++ lineBreak (level + 1)).intercalate items ++
      lineBreak level ++ closing

mutual

/-- The value as it stands at a level of indentation. -/
def documentAt (level : Nat) : Datum → String
  | null => "null"
  | bool b => if b then "true" else "false"
  | int n => toString n
  | float x => documentNumber x
  | text s => quotedAscii s
  | list items => block level "[" "]" (documentItems (level + 1) items)
  | mapping entries => block level "\x7b" "\x7d" (documentEntries (level + 1) entries)

def documentItems (level : Nat) : List Datum → List String
  | [] => []
  | item :: rest => documentAt level item :: documentItems level rest

def documentEntries (level : Nat) : List (String × Datum) → List String
  | [] => []
  | (key, value) :: rest =>
    (quotedAscii key ++ ": " ++ documentAt level value) :: documentEntries level rest

end

/-- The whole document. -/
def document (value : Datum) : String :=
  documentAt 0 value

end Contraction.Datum
