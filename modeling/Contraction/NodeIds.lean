import Contraction.Datum.Conversion

/-!
# Node ids

A tree numbers its nodes. It keeps the next number, and when nodes with ids of their own come into
the tree it moves on past every number among them, so that no id is issued twice. This ends at a
number with more digits than are read.
-/

namespace Contraction

open Text

/-- The source of the ids of one tree: the number that is issued next. -/
structure NodeIds where
  next : Nat
deriving DecidableEq, Repr, Inhabited

namespace NodeIds

/-- The id with a number. -/
def nodeId (n : Nat) : String :=
  "node_" ++ toString n

/-- A line break at the very end does not count. -/
def dropFinalBreak (cs : List Char) : List Char :=
  if cs.getLast? = some '\n' then cs.dropLast else cs

/-- The digits behind the fixed part of an id, in any script. -/
def digitsOfChars? : List Char → Option (List Nat)
  | 'n' :: 'o' :: 'd' :: 'e' :: '_' :: rest =>
    match digitValues? (dropFinalBreak rest) with
    | some [] | none => none
    | some ds => some ds
  | _ => none

/-- The digits of an id that has the form of an issued one. -/
def digits? (id : String) : Option (List Nat) :=
  digitsOfChars? id.toList

/-- The number of an id that has the form of an issued one. -/
def number? (id : String) : Option Nat :=
  (digits? id).map ofDigits

/-- How many digits an id has, if they are more than are read. -/
def excess? (id : String) : Option Nat :=
  ((digits? id).map List.length).filter (digitLimit < ·)

/-- The next id, and the source after it. -/
def issue (ids : NodeIds) : String × NodeIds :=
  (nodeId ids.next, ⟨ids.next + 1⟩)

/-- Moves on past the number of an id, if it has one. -/
def avoid (ids : NodeIds) (id : String) : NodeIds :=
  match number? id with
  | some n => ⟨max ids.next (n + 1)⟩
  | none => ids

/-- Moves on past the numbers of the ids, up to one that is too long to be read. -/
def avoidAll (ids : NodeIds) (used : List String) : NodeIds :=
  (used.takeWhile fun id => (excess? id).isNone).foldl avoid ids

/-- Whether all numbers before the next one are short enough to be written. -/
def areWritable (ids : NodeIds) : Bool :=
  ids.next ≤ Nat.pow 10 digitLimit

/-- Why no source starts with a value. -/
inductive StartFault where
  /-- The value is no number that could be below zero or not. -/
  | notOrdered
  | negative
  | conversion (fault : ConversionFault)

def StartFault.message : StartFault → String
  | notOrdered => "no number to start with"
  | negative => "Node id sequence must start at a non-negative value"
  | conversion fault => fault.message

/-- A source that starts with the integer part of a number, which must not be negative. -/
def startingAt (start : Datum) : Except StartFault NodeIds :=
  match start.isNegative? with
  | none => .error .notOrdered
  | some true => .error .negative
  | some false =>
    match start.toInteger with
    | .ok n => .ok ⟨n.toNat⟩
    | .error fault => .error (.conversion fault)

theorem next_le_avoid (ids : NodeIds) (id : String) : ids.next ≤ (ids.avoid id).next := by
  unfold avoid
  split
  · exact Nat.le_max_left ..
  · exact Nat.le_refl _

theorem number_lt_avoid {id : String} {n : Nat} (ids : NodeIds) (h : number? id = some n) :
    n < (ids.avoid id).next := by
  simp only [avoid, h]
  omega

end NodeIds

end Contraction
