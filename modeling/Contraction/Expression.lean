/-!
# Expressions

An expression says how tensors are combined. Each tensor in it has a list of index labels: one per
dimension, in the order of storage. A leaf is a tensor that is given, a permutation reorders or sums
one tensor, and a contraction combines two.

The written form puts every operand into brackets and the labels of the result behind an arrow, and
leaves out the brackets around the whole: `[m,k],[k,n]->[m,n]` multiplies two matrices.
-/

namespace Contraction

/-- How tensors are combined; each node has the labels of its result. -/
inductive Expression where
  | leaf (labels : List String)
  | permutation (operand : Expression) (labels : List String)
  | contraction (left right : Expression) (labels : List String)
deriving DecidableEq, Repr, Inhabited

/-- Labels as they stand in an expression, with commas between them. -/
def joinLabels (labels : List String) : List Char :=
  [','].intercalate (labels.map String.toList)

/-- Labels between brackets. -/
def bracketLabels (labels : List String) : List Char :=
  '[' :: joinLabels labels ++ [']']

/-- Labels between brackets, as a text. -/
def bracketedText (labels : List String) : String :=
  String.ofList (bracketLabels labels)

namespace Expression

def labels : Expression → List String
  | leaf labels => labels
  | permutation _ labels => labels
  | contraction _ _ labels => labels

/-- The characters of the written form. -/
def written : Expression → List Char
  | leaf labels => joinLabels labels
  | permutation operand labels =>
    '[' :: operand.written ++ [']', '-', '>'] ++ bracketLabels labels
  | contraction left right labels =>
    '[' :: left.written ++ [']', ',', '['] ++ right.written ++ [']', '-', '>'] ++
      bracketLabels labels

/-- The written form. -/
def text (e : Expression) : String :=
  String.ofList e.written

end Expression

end Contraction
