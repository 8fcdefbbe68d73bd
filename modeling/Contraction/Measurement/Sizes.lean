import Contraction.Branch.Sweep
import Contraction.Branch.Walk
import Contraction.Fault
import Contraction.Measurement.Cost
import Contraction.Measurement.Share

/-!
# Sizes of tensors

The bytes of every tensor of a branch, and their shares among all tensors.
-/

namespace Contraction

open Number

/-- Numbers that are all in the range of the format. -/
def inRange (xs : List Binary64) : Bool :=
  xs.all Binary64.isFinite

namespace Branch

/-- Sets the bytes of a node's tensor. -/
def visitSize (sizing : Sizing) (elementBytes : Int) (_ : Unit) (e : Entry) (_ _ : Branch) :
    Unit × Entry × Option Fault :=
  match sizing.product e.labels with
  | .error fault => ((), e, some (.conversion fault))
  | .ok elements =>
    let measures := { e.measures with tensorSize := some (elements * elementBytes) }
    ((), { e with measures }, none)

/-- The bytes of all tensors, in post-order. -/
def tensorSizes (b : Branch) : List Int :=
  b.postorder.filterMap fun n => n.entry?.bind (·.measures.tensorSize)

/-- Sets the shares of a node's tensor among all tensors. -/
def setSizeShares (total : Binary64) (span : Binary64.Span) (e : Entry) : Entry :=
  match e.measures.tensorSize with
  | none => e
  | some bytes =>
    let x := Binary64.ofInt bytes
    let measures := { e.measures with
      sizePercentage := some (Binary64.percentOf total x)
      normalizedSizePercentage := some (span.percent x) }
    { e with measures }

/-- Sets all that concerns sizes. -/
def measureSizes (sizing : Sizing) (elementBytes : Int) (b : Branch) : Branch × Option Fault :=
  match sweep (visitSize sizing elementBytes) () b with
  | (_, b, some fault) => (b, some fault)
  | (_, b, none) =>
    let sizes := b.tensorSizes.map Binary64.ofInt
    if inRange sizes then
      (b.mapEntries (setSizeShares (Binary64.sum sizes) (Binary64.spanOf sizes)), none)
    else (b, some (.conversion .outOfRange))

end Branch

end Contraction
