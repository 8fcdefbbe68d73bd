import Contraction.Dimensions

/-!
# Unclassified contractions

Why the labels of a node and of its operands make no contraction, and how a message says so.
-/

namespace Contraction

/-- Why there are no dimensions. -/
inductive ClassFault where
  /-- The label is missing or empty. -/
  | undefinedLabel (label : Label)
  /-- The label occurs once more in the node. -/
  | repeatedLabel (name : String)
  /-- The label of the node is in neither operand. -/
  | malformedAt (label : Label)
  /-- A label of one operand is neither in the other nor in the node. -/
  | invalidContracted
  /-- There is no node with the id. -/
  | nodeNotFound (id : String)
  /-- The node has not two operands. -/
  | notContraction (id : String)
deriving DecidableEq, Repr

def ClassFault.message : ClassFault → String
  | undefinedLabel label => "Contraction element " ++ label.shown ++ " is undefined or empty"
  | repeatedLabel name => "Index " ++ name ++ " already processed"
  | malformedAt label => "Contraction is malformed at index " ++ label.shown
  | invalidContracted => "Node has invalid K dimension"
  | nodeNotFound id => "Node " ++ id ++ " not found"
  | notContraction id => "Node " ++ id ++ " is not a binary contraction"

/-- The labels of the tensors of a contraction, the operands in front of the result, as a message
adds them. Nothing is added when the labels of the result are not known. -/
def describeOperands (node left right : Option (List String)) : String :=
  let list (labels : Option (List String)) : String :=
    "[" ++ ",".intercalate (labels.getD []) ++ "]"
  match node with
  | none => ""
  | some _ => " (" ++ list left ++ "," ++ list right ++ "->" ++ list node ++ ")"

/-- The labels of a node and of its operands. -/
structure Operands where
  node : List Label
  left : List Label
  right : List Label
deriving DecidableEq, Repr

/-- The labels as a caller gives them: a list that is missing counts as an empty one. -/
def Operands.ofGiven (node left right : Option (List Label)) : Operands :=
  ⟨node.getD [], left.getD [], right.getD []⟩

/-- Why there are no dimensions, and of which contraction. -/
structure Unclassified where
  fault : ClassFault
  operands : Option Operands
deriving DecidableEq, Repr

namespace Unclassified

/-- The reason alone. -/
def short (e : Unclassified) : String :=
  e.fault.message

/-- The reason and the contraction. -/
def message (e : Unclassified) : String :=
  e.short ++ describeOperands (e.operands.map (·.node.map Label.plainText))
    (e.operands.map (·.left.map Label.plainText)) (e.operands.map (·.right.map Label.plainText))

end Unclassified

end Contraction
