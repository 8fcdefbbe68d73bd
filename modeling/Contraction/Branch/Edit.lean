import Contraction.Branch.Walk

/-!
# Edits of a branch

Changes at one node, found by its id: swapping its children, putting a permutation over it and
taking one away. An edit that does not apply gives nothing.
-/

namespace Contraction.Branch

/-- A node with its sides exchanged. -/
def swapSides : Branch → Branch
  | absent => absent
  | node e l r => node e r l

/-- Exchanges the children of a node that has a right one. -/
def swapAt (b : Branch) (id : String) : Option Branch :=
  match b.find? id with
  | none => none
  | some n => if n.right.isAbsent then none else b.updateFirst? (·.hasId id) swapSides

/-- Puts what a node holds into a new node below it, so that the node permutes the new one. Both may
be removed. -/
def wrap (newId : String) : Branch → Branch
  | absent => absent
  | node e l r =>
    let inner : Entry := { id := newId, labels := e.labels, sizes := e.sizes }
    node e.mark (node inner.mark l r) absent

/-- Puts a permutation over the tensor of a node. The node with the id becomes the permutation. -/
def wrapAt (b : Branch) (id newId : String) : Option Branch :=
  b.updateFirst? (·.hasId id) (wrap newId)

def isDeletable (b : Branch) : Bool :=
  b.entry?.any Entry.isDeletable

/-- A node that may not be removed, if there is one. -/
def unmarkDeletable : Branch → Branch :=
  mapTop Entry.unmark

/-- Takes the child with an id away from its parent; the left child is looked at first. A child that
has a child of its own leaves it in its place. Where the child takes its whole side with it, or
would leave two in its place, it must be the only child, and then the parent may no longer be
removed. -/
def dropChild? (id : String) : Branch → Option Branch
  | absent => none
  | node e l r =>
    let onLeft := l.hasId id
    let target := if onLeft then l else r
    let sibling := if onLeft then r else l
    if !target.isDeletable then none
    else if target.isContraction then
      if sibling.isAbsent then some (node e.unmark target.left target.right) else none
    else if target.left.isAbsent then
      if sibling.isAbsent then some (node e.unmark absent absent) else none
    else
      let adopted := target.left.unmarkDeletable
      some (if onLeft then node e adopted r else node e l adopted)

/-- Removes the node with an id, if it may be removed. At the top only a permutation is. -/
def removeAt (b : Branch) (id : String) : Option Branch :=
  if b.hasId id then
    if b.isDeletable && b.isPermutation then some b.left else none
  else
    match b.parentOf? id with
    | none => none
    | some parent =>
      match parent.dropChild? id with
      | none => none
      | some changed =>
        b.updateFirst? (fun n => n.left.hasId id || n.right.hasId id) fun _ => changed

/-- Gives the node with an id other labels. -/
def renameAt (b : Branch) (id : String) (labels : List String) : Option Branch :=
  b.updateFirst? (·.hasId id) (mapTop fun e => { e with labels := labels.map some })

end Contraction.Branch
