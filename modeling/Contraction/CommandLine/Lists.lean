import Contraction.Number.Literal
import Contraction.Table
import Contraction.Text.Quoted

/-!
# Lists on the command line

Labels and sizes are given as items with commas between them. Blanks around an item do not count,
and an item of blanks alone counts as none.
-/

namespace Contraction.CommandLine

open Text

/-- The pieces of a text between the characters equal to a separator. -/
def splitOn (separator : Char) : List Char → List (List Char)
  | [] => [[]]
  | c :: rest =>
    if c == separator then [] :: splitOn separator rest
    else
      match splitOn separator rest with
      | [] => [[c]]
      | piece :: pieces => (c :: piece) :: pieces

/-- The items of a list, without the blanks around them. -/
def items (cs : List Char) : List (List Char) :=
  ((splitOn ',' cs).map (trimList isBlank)).filter (!·.isEmpty)

/-- The labels in a list, around which there may be brackets. -/
def labels (text : String) : List String :=
  (items (trimList (fun c => c == '[' || c == ']') text.toList)).map String.ofList

/-- Why a list gives no sizes. -/
inductive SizesError where
  /-- The item has no label or no equals sign. -/
  | invalidEntry (item : String)
  /-- The size is no integer. -/
  | invalidSize (label value : String)
  /-- The size is less than one. -/
  | notPositive (label : String)
deriving DecidableEq, Repr

def SizesError.message : SizesError → String
  | invalidEntry item => "Invalid size entry " ++ quoted item ++ "; expected label=size"
  | invalidSize label value => "Invalid size for " ++ quoted label ++ ": " ++ quoted value
  | notPositive label => "Size for " ++ quoted label ++ " must be positive"

/-- The label and the size in an item. -/
def sizeEntry (item : List Char) : Except SizesError (String × Int) :=
  let label := String.ofList (trimList isBlank (item.takeWhile (· != '=')))
  match item.dropWhile (· != '=') with
  | [] => .error (.invalidEntry (String.ofList item))
  | _ :: rest =>
    let value := String.ofList rest
    if label.isEmpty then .error (.invalidEntry (String.ofList item))
    else
      match Number.integer? value with
      | none => .error (.invalidSize label value)
      | some size => if size ≤ 0 then .error (.notPositive label) else .ok (label, size)

/-- The sizes in a list. The first item that is wrong decides. -/
def sizes (text : String) : Except SizesError (Table Int) :=
  ((items text.toList).mapM sizeEntry).map Table.ofPairs

end Contraction.CommandLine
