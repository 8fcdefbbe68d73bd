import Contraction.Datum.Conversion
import Contraction.Dimensions
import Contraction.Table

/-!
# Costs

What one contraction costs when the sizes of its labels are known, and how a tensor lies in memory.
-/

namespace Contraction

/-- The size of each label, or why it is no integer. -/
abbrev Sizing := Label → Except ConversionFault Int

/-- The sizes of a table, and one for all labels that are not in it. -/
def Sizing.ofTable (sizes : Table Datum) (default : Datum) : Sizing :=
  fun label => ((label.bind sizes.get?).getD default).toInteger

/-- The product of some sizes. -/
def product (sizes : List Int) : Int :=
  sizes.foldr (· * ·) 1

/-- The product of the sizes of some labels. -/
def Sizing.product (sizing : Sizing) (labels : List Label) : Except ConversionFault Int :=
  (labels.mapM sizing).map Contraction.product

/-- The product of the sizes of each kind of labels. -/
structure Extents where
  c : Int
  m : Int
  n : Int
  k : Int
deriving DecidableEq, Repr

namespace Extents

/-- Multiplications and additions: each element of the result is a sum of `k` products. -/
def operations (x : Extents) : Int :=
  2 * (x.c * x.m * x.n) * x.k - x.c * x.m * x.n

/-- Elements of the result written and of the operands read. -/
def byteAccesses (x : Extents) : Int :=
  x.c * x.m * x.n + x.n * x.k + x.m * x.k

end Extents

/-- The products of the sizes, kind by kind. -/
def Dimensions.extents (d : Dimensions) (sizing : Sizing) : Except ConversionFault Extents := do
  let extent (kind : Kind) := sizing.product ((d.ofKind kind).map some)
  return ⟨← extent .c, ← extent .m, ← extent .n, ← extent .k⟩

/-- The strides of dimensions of some sizes, the last of which varies fastest, and the stride of a
dimension in front of them. A size below one counts as one. -/
def stridesAndNext : List Int → List Int × Int
  | [] => ([], 1)
  | size :: rest =>
    let (strides, next) := stridesAndNext rest
    (next :: strides, next * max 1 size)

/-- How far apart two elements lie whose position differs by one in a dimension. -/
def strides (sizes : List Int) : List Int :=
  (stridesAndNext sizes).1

/-- The strides of a tensor with some labels. The sizes are looked up from the last label on. -/
def Sizing.strides (sizing : Sizing) (labels : List Label) : Except ConversionFault (List Int) :=
  (labels.reverse.mapM sizing).map fun sizes => Contraction.strides sizes.reverse

end Contraction
