import Contraction.Datum

/-!
# Refused edits

The edits of a plan, and what is said of one that does not apply.
-/

namespace Contraction

/-- The edits of a plan. -/
inductive EditAction where
  | swap
  | wrap
  | remove
  | rename
deriving DecidableEq, Repr

def EditAction.name : EditAction → String
  | swap => "swap"
  | wrap => "add permutation"
  | remove => "remove permutation"
  | rename => "relabel"

/-- A message about a node, if one is named. -/
def describeNode (message : String) (nodeId : Datum) : String :=
  match nodeId with
  | .null => message
  | id => message ++ " (node " ++ id.plainText ++ ")"

/-- An edit that was not applied, and what it named as the node, which may be anything. -/
structure RefusedEdit where
  action : EditAction
  nodeId : Datum

def RefusedEdit.message (e : RefusedEdit) : String :=
  describeNode (e.action.name ++ " was not applied") e.nodeId

end Contraction
