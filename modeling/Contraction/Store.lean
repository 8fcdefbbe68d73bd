import Contraction.Branch
import Contraction.Measurement.Settings
import Contraction.NodeIds

/-!
# Stores

Where nodes and trees are shared and changed in place, they are records of a store, and a record
knows another one by reference: a node its children and its measures, a tree its source of ids and
its topmost node. Whoever holds a reference sees what is written to the record later on. Records are
made at the end of the store and are never taken away; a record is written as a whole.

The labels and the sizes of a node and the table of a tree are values inside their record. They are
only ever replaced by others, never changed item by item, so nobody can share them.
-/

namespace Contraction

/-- The place of a record in its store. -/
abbrev Ref := Nat

/-- A node, with its children and its measures by reference. -/
structure NodeRecord where
  id : String
  labels : List Label
  left : Option Ref := none
  right : Option Ref := none
  deletable : Datum := .bool false
  sizes : Option (List Datum) := none
  measures : Ref

/-- A tree, with its source of ids and its topmost node by reference. -/
structure TreeRecord where
  ids : Ref
  sizes : Table Int := .empty
  root : Option Ref := none

/-- What a store holds at a place. -/
inductive Record where
  | node (n : NodeRecord)
  | measures (m : Measures)
  | tree (t : TreeRecord)
  | ids (ids : NodeIds)

namespace Record

def node? : Record → Option NodeRecord
  | node n => some n
  | _ => none

def measures? : Record → Option Measures
  | measures m => some m
  | _ => none

def tree? : Record → Option TreeRecord
  | tree t => some t
  | _ => none

def ids? : Record → Option NodeIds
  | ids source => some source
  | _ => none

end Record

namespace NodeRecord

/-- Any mark but a void one counts. -/
def isDeletable (n : NodeRecord) : Bool :=
  !n.deletable.isVoid

def mark (n : NodeRecord) : NodeRecord :=
  { n with deletable := .bool true }

def unmark (n : NodeRecord) : NodeRecord :=
  { n with deletable := .bool false }

/-- The child on one side. -/
def side (n : NodeRecord) (onLeft : Bool) : Option Ref :=
  if onLeft then n.left else n.right

/-- A node with another child on one side. -/
def setSide (n : NodeRecord) (onLeft : Bool) (child : Option Ref) : NodeRecord :=
  if onLeft then { n with left := child } else { n with right := child }

/-- A node with the sizes of its labels by a table. -/
def sizedBy (n : NodeRecord) (sizes : Table Int) : NodeRecord :=
  let size (label : Label) : Int := (label.bind sizes.get?).getD defaultIndexSize
  { n with sizes := some (n.labels.map fun label => .int (size label)) }

/-- What a node carries besides its children, with the measures that its reference leads to. -/
def entry (n : NodeRecord) (measures : Measures) : Entry :=
  { id := n.id, labels := n.labels, deletable := n.deletable, sizes := n.sizes, measures }

end NodeRecord

/-- The record of a node that carries an entry. -/
def Entry.record (e : Entry) (left right : Option Ref) (measures : Ref) : NodeRecord :=
  { id := e.id, labels := e.labels, left, right, deletable := e.deletable, sizes := e.sizes
    measures }

/-- The records, in the order in which they were made. -/
structure Store where
  records : Array Record := #[]

namespace Store

variable {s : Store} {r q : Nat} {x : Record}

def size (s : Store) : Nat :=
  s.records.size

def get? (s : Store) (r : Ref) : Option Record :=
  s.records[r]?

/-- The store with one more record; its place is the size that the store had. -/
def push (s : Store) (x : Record) : Store :=
  ⟨s.records.push x⟩

/-- The store with another record at a place. -/
def set (s : Store) (r : Ref) (x : Record) : Store :=
  ⟨s.records.setIfInBounds r x⟩

/-- What a place holds, if it is of some kind. -/
def find? {α : Type} (s : Store) (kind : Record → Option α) (r : Ref) : Option α :=
  (s.get? r).bind kind

def node? (s : Store) : Ref → Option NodeRecord :=
  s.find? Record.node?

@[simp] theorem size_push : (s.push x).size = s.size + 1 :=
  Array.size_push ..

@[simp] theorem size_set : (s.set r x).size = s.size :=
  Array.size_setIfInBounds

theorem get?_push : (s.push x).get? r = if r = s.size then some x else s.get? r :=
  Array.getElem?_push

theorem get?_set_self (h : r < s.size) : (s.set r x).get? r = some x :=
  Array.getElem?_setIfInBounds_self_of_lt h

theorem get?_set_ne (h : r ≠ q) : (s.set r x).get? q = s.get? q :=
  Array.getElem?_setIfInBounds_ne h

theorem find?_set_self {α : Type} {kind : Record → Option α} (h : r < s.size) :
    (s.set r x).find? kind r = kind x := by
  unfold find?
  rw [get?_set_self h]
  rfl

theorem find?_congr {s' : Store} {α : Type} {kind : Record → Option α}
    (h : s'.get? r = s.get? r) : s'.find? kind r = s.find? kind r := by
  unfold find?
  rw [h]

theorem lt_size_of_get? (h : s.get? r = some x) : r < s.size :=
  (Array.getElem?_eq_some_iff.mp h).1

end Store

/-- Work on a store. It comes to nothing where a reference leads to no record of the kind that it
should lead to. -/
abbrev Stored := StateT Store Option

namespace Stored

/-- What is seen in the store, which stays as it is. -/
def look {α : Type} (see : Store → Option α) : Stored α := fun s =>
  (see s).map (·, s)

/-- The record of some kind at a place. -/
def read {α : Type} (kind : Record → Option α) (r : Ref) : Stored α :=
  look (·.find? kind r)

def node : Ref → Stored NodeRecord :=
  read Record.node?

def tree : Ref → Stored TreeRecord :=
  read Record.tree?

def ids : Ref → Stored NodeIds :=
  read Record.ids?

/-- Makes a record, and gives its place. -/
def alloc (x : Record) : Stored Ref := fun s =>
  some (s.size, s.push x)

/-- Writes a record. -/
def write (r : Ref) (x : Record) : Stored Unit := fun s =>
  some ((), s.set r x)

end Stored

end Contraction
