import Contraction.Datum

/-!
# Branches

A contraction tree is made of nodes with up to two children. A `Branch` is nothing or a node with
two branches; the child of a permutation is on its left side and nothing is on its right. The type
also holds what no expression gives but a caller may: a node with a right child alone, a label that
is missing, and any values in the place of the sizes and of the mark of a node.
-/

namespace Contraction

open Number

/-- What is known of the costs of a node. A field is set as soon as it has been computed. -/
structure Measures where
  /-- Bytes of the node's tensor. -/
  tensorSize : Option Int := none
  /-- Share of all tensors' bytes, in percent. -/
  sizePercentage : Option Binary64 := none
  /-- Where the size lies between the least and the greatest in the tree, in percent. -/
  normalizedSizePercentage : Option Binary64 := none
  operations : Option Int := none
  /-- Share of all operations, in percent. -/
  operationsPercentage : Option Binary64 := none
  /-- Where the share lies between the least and the greatest, in percent. -/
  normalizedOperationsPercentage : Option Binary64 := none
  byteAccesses : Option Int := none
  /-- Operations for each byte moved. -/
  arithmeticIntensity : Option Binary64 := none
  /-- Operations of the whole tree, known at its root. -/
  totalOperations : Option Int := none
deriving DecidableEq, Repr, Inhabited

namespace Measures

def unset : Measures := {}

/-- The measures with all that concerns operations unset. -/
def withoutOperations (m : Measures) : Measures :=
  { tensorSize := m.tensorSize
    sizePercentage := m.sizePercentage
    normalizedSizePercentage := m.normalizedSizePercentage }

/-- Nothing that concerns operations is set. -/
structure LacksOperations (m : Measures) : Prop where
  operations : m.operations = none
  operationsPercentage : m.operationsPercentage = none
  normalizedOperationsPercentage : m.normalizedOperationsPercentage = none
  byteAccesses : m.byteAccesses = none
  arithmeticIntensity : m.arithmeticIntensity = none
  totalOperations : m.totalOperations = none

theorem withoutOperations_eq_self_iff {m : Measures} :
    m.withoutOperations = m ↔ m.LacksOperations := by
  constructor
  · intro h
    rw [← h]
    exact ⟨rfl, rfl, rfl, rfl, rfl, rfl⟩
  · intro h
    cases m
    obtain ⟨rfl, rfl, rfl, rfl, rfl, rfl⟩ := h
    rfl

end Measures

/-- What a node carries besides its children. -/
structure Entry where
  id : String
  /-- The labels of the node's tensor, in the order of storage. -/
  labels : List Label
  /-- The mark of a node that takes part in a permutation that may be removed. -/
  deletable : Datum := .bool false
  /-- The sizes of the labels, once they have been applied. -/
  sizes : Option (List Datum) := none
  measures : Measures := {}
deriving Repr, Inhabited

namespace Entry

/-- Any mark but a void one counts. -/
def isDeletable (e : Entry) : Bool :=
  !e.deletable.isVoid

def mark (e : Entry) : Entry :=
  { e with deletable := .bool true }

def unmark (e : Entry) : Entry :=
  { e with deletable := .bool false }

def withoutMeasures (e : Entry) : Entry :=
  { e with measures := .unset }

end Entry

/-- Nothing, or a node and what hangs below it. -/
inductive Branch where
  | absent
  | node (entry : Entry) (left right : Branch)
deriving Repr, Inhabited

namespace Branch

def isAbsent : Branch → Bool
  | absent => true
  | node .. => false

def entry? : Branch → Option Entry
  | absent => none
  | node e _ _ => some e

def left : Branch → Branch
  | absent => absent
  | node _ l _ => l

def right : Branch → Branch
  | absent => absent
  | node _ _ r => r

def id? (b : Branch) : Option String :=
  b.entry?.map Entry.id

def hasId (b : Branch) (id : String) : Bool :=
  b.id? == some id

def labels (b : Branch) : List Label :=
  match b with
  | absent => []
  | node e _ _ => e.labels

/-- A node without children. -/
def isLeaf : Branch → Bool
  | node _ absent absent => true
  | _ => false

/-- A node with a left child alone. -/
def isPermutation : Branch → Bool
  | node _ (node ..) absent => true
  | _ => false

/-- A node with two children. -/
def isContraction : Branch → Bool
  | node _ (node ..) (node ..) => true
  | _ => false

/-- The children that are there, the left one first. -/
def children (b : Branch) : List Branch :=
  [b.left, b.right].filter (!·.isAbsent)

/-- The number of nodes. -/
def size : Branch → Nat
  | absent => 0
  | node _ l r => l.size + r.size + 1

/-- Applies a function to what each node carries. -/
def mapEntries (f : Entry → Entry) : Branch → Branch
  | absent => absent
  | node e l r => node (f e) (l.mapEntries f) (r.mapEntries f)

/-- A copy with all measures unset. -/
def withoutMeasures : Branch → Branch :=
  mapEntries Entry.withoutMeasures

/-- Changes what the topmost node carries. -/
def mapTop (f : Entry → Entry) : Branch → Branch
  | absent => absent
  | node e l r => node (f e) l r

theorem size_mapEntries (f : Entry → Entry) (b : Branch) : (b.mapEntries f).size = b.size := by
  induction b with
  | absent => rfl
  | node e l r ihl ihr => simp [mapEntries, size, ihl, ihr]

end Branch

end Contraction
