import Contraction.Expression.Situation
import Contraction.Text.Characters

/-!
# Reading expressions

From a text to the expression that it writes, or to where and why it writes none. Blanks mean
nothing and are left out first; positions count the characters that remain. The last bracket of the
text may be missing, as the brackets around the whole are left out in writing.
-/

namespace Contraction

open Text

/-- Why a text is no expression. -/
inductive ReadFault where
  /-- The text ends too early. -/
  | endOfInput
  /-- The character begins no token that may stand here. -/
  | invalidCharacter (c : Char)
  /-- The text is an expression up to here, and something follows. -/
  | extraCharacters (rest : String)
  /-- A left operand must be followed by a separator or an arrow. -/
  | expectedOperator (found : String)
  /-- A right operand must be followed by an arrow. -/
  | expectedArrow (found : String)
  /-- A comma must be followed by a label. -/
  | expectedLabel
deriving DecidableEq, Repr

def ReadFault.message : ReadFault → String
  | endOfInput => "Unexpected end of input"
  | invalidCharacter c => "Invalid character '" ++ c.toString ++ "'"
  | extraCharacters rest => "Parsed tree but found extra characters '" ++ rest ++ "'"
  | expectedOperator found => "Expected '+[', ',[' or '->[' but found '" ++ found ++ "'"
  | expectedArrow found => "Expected '->[' but found '" ++ found ++ "'"
  | expectedLabel => "Expected index label but found ']'"

/-- A text that is no expression: why, where, and the text without its blanks. -/
structure Misreading where
  fault : ReadFault
  position : Nat
  source : String
deriving DecidableEq, Repr

/-- A place in a text as a message tells it: line and column, then the line itself and a caret below
the column, as far as they are known. -/
def describePlace (line column : Option Int) (lineText : Option String) : String :=
  let parts := (line.map fun n => "line " ++ toString n).toList ++
    (column.map fun n => "col " ++ toString n).toList
  if parts.isEmpty then ""
  else
    let place := " (" ++ ", ".intercalate parts ++ ")"
    match lineText, column with
    | some text, some column =>
      if column < 1 then place
      else
        let caret := String.ofList (List.replicate (column.natAbs - 1) ' ') ++ "^"
        place ++ "\n  " ++ text ++ "\n  " ++ caret
    | _, _ => place

namespace Misreading

/-- Columns count from one. -/
def column (e : Misreading) : Nat :=
  e.position + 1

/-- The reason alone. -/
def short (e : Misreading) : String :=
  e.fault.message

/-- The reason and the place. -/
def message (e : Misreading) : String :=
  e.short ++ describePlace (some 1) (some e.column) (some e.source)

end Misreading

namespace Expression

/-- Why no token may follow in a situation that is not the first one, at the front of a text that is
not empty. -/
def diagnose (s : Situation) (atStart : Bool) (text : List Char) : ReadFault :=
  match text with
  | [] => .endOfInput
  | found :: _ =>
    let expected := s.expects
    if !isTokenChar found then .invalidCharacter found
    else if !atStart && s.result?.isSome then .extraCharacters (String.ofList text)
    else if expected.contains .separator && expected.contains .arrow then
      .expectedOperator (String.ofList (text.take 2))
    else if expected.contains .arrow then .expectedArrow (String.ofList (text.take 3))
    else if found == ']' && expected.contains .label && !expected.contains .closing then
      .expectedLabel
    else .invalidCharacter found

/-- The expression that the whole text writes, which has no blanks. An empty text writes none. -/
def readChars (source : List Char) : Except (ReadFault × Nat) Expression :=
  let (s, rest) := Situation.initial.run source
  let position := source.length - rest.length
  match rest, s.result? with
  | [], some e => if source.isEmpty then .error (.endOfInput, 0) else .ok e
  | _, _ => .error (diagnose s (position == 0) rest, position)

/-- The expression that a text writes. No text at all is like an empty one. -/
def read (text : Option String) : Except Misreading Expression :=
  let source := withoutBlanks (text.getD "")
  match readChars source.toList with
  | .ok e => .ok e
  | .error (fault, position) => .error ⟨fault, position, source⟩

end Expression

end Contraction
