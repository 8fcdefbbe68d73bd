import Contraction.Dimensions.Placing
import Contraction.Measurement.Sizes
import Contraction.Notice

/-!
# Operations of contractions

What the contractions of a branch do, and their shares of all operations. A survey visits every node
with two children: one whose labels make no contraction is faulty, the others are counted.
-/

namespace Contraction

open Number

/-- What is known of a plan as a whole. -/
structure Totals where
  operations : Int := 0
  /-- The nodes with two children that are no contraction of them, in post-order. -/
  faulty : List String := []
  /-- The contractions, in post-order; none if there is a faulty node. -/
  contractions : List String := []
deriving DecidableEq, Repr, Inhabited

/-- No node is faulty. -/
def Totals.sound (t : Totals) : Bool :=
  t.faulty.isEmpty

/-- What the nodes visited so far have shown. -/
structure Survey where
  totals : Totals := {}
  notices : List Notice := []

namespace Branch

/-- The labels of a node and of its children. -/
def operands (b : Branch) : Operands :=
  ⟨b.labels, b.left.labels, b.right.labels⟩

/-- The branch with all that concerns operations unset. -/
def withoutOperations : Branch → Branch :=
  mapEntries fun e => { e with measures := e.measures.withoutOperations }

/-- Adds a faulty node to a survey. -/
def noteFaulty (s : Survey) (id : String) (error : Unclassified) : Survey :=
  let totals := { s.totals with faulty := s.totals.faulty ++ [id] }
  { totals, notices := s.notices ++ [.faultyNode id error] }

/-- Sets the operations of a contraction and the bytes it moves, and adds them to the survey.
Nothing is moved where a label has size zero. -/
def countContraction (elementBytes : Int) (s : Survey) (e : Entry) (x : Extents) :
    Survey × Entry × Option Fault :=
  let counted := { e.measures with
    operations := some x.operations, byteAccesses := some x.byteAccesses }
  let traffic := x.byteAccesses * elementBytes
  let intensity := Binary64.quotient? x.operations traffic
  if traffic ≠ 0 && intensity.isNone then
    (s, { e with measures := counted }, some (.conversion .outOfRange))
  else
    let totals := { s.totals with
      operations := s.totals.operations + x.operations
      contractions := s.totals.contractions ++ [e.id] }
    let measures := { counted with arithmeticIntensity := if traffic = 0 then none else intensity }
    ({ s with totals }, { e with measures }, none)

/-- Looks at a node with two children. -/
def visitOperations (sizing : Sizing) (elementBytes : Int) (s : Survey) (e : Entry) (l r : Branch) :
    Survey × Entry × Option Fault :=
  if l.isAbsent || r.isAbsent then (s, e, none)
  else
    match (node e l r).operands.dimensions with
    | .error error => (noteFaulty s e.id error, e, none)
    | .ok dims =>
      match dims.extents sizing with
      | .error fault => (s, e, some (.conversion fault))
      | .ok x => countContraction elementBytes s e x

/-- The operations of all contractions, in post-order. -/
def operationCounts (b : Branch) : List Int :=
  b.postorder.filterMap fun n => n.entry?.bind (·.measures.operations)

/-- Sets the shares of a contraction's operations among all operations. -/
def setOperationShares (total : Binary64) (span : Binary64.Span) (e : Entry) : Entry :=
  match e.measures.operations with
  | none => e
  | some count =>
    let share := Binary64.percentOf total (Binary64.ofInt count)
    let measures := { e.measures with
      operationsPercentage := some share
      normalizedOperationsPercentage := some (span.percent share) }
    { e with measures }

/-- Sets the total of all operations at the top. -/
def setTotal (total : Int) : Branch → Branch :=
  mapTop fun e => { e with measures := { e.measures with totalOperations := some total } }

/-- Sets the shares of the operations. Only a positive total has to be in range. -/
def shareOperations (total : Int) (b : Branch) : Branch × Option Fault :=
  let counts := b.operationCounts.map Binary64.ofInt
  let whole := if 0 < total then Binary64.ofInt total else .zero
  if inRange (whole :: counts) then
    let shares := counts.map (Binary64.percentOf whole)
    (b.mapEntries (setOperationShares whole (Binary64.spanOf shares)), none)
  else (b, some (.conversion .outOfRange))

end Branch

end Contraction
