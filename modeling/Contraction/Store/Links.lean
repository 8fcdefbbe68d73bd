import Contraction.Plan
import Contraction.Store

/-!
# Links

The links of a tree are the references that lead from its topmost node to all others, in the shape
of the tree. They are read from the records of the nodes; there are none where a reference leads
nowhere or back to where it came from. What is done with the nodes of a tree one by one is done
along its links: nothing that is done on the way changes the links that are still to be followed.
-/

namespace Contraction

/-- Nothing, or the references of a node and of its measures, and what hangs below. -/
inductive Links where
  | absent
  | node (top measures : Ref) (left right : Links)

namespace Links

def top? : Links → Option Ref
  | absent => none
  | node top .. => some top

def left : Links → Links
  | absent => absent
  | node _ _ l _ => l

def right : Links → Links
  | absent => absent
  | node _ _ _ r => r

/-- The links of all nodes: a node first, then its left side, then its right. -/
def preorder : Links → List Links
  | absent => []
  | node top m l r => node top m l r :: (l.preorder ++ r.preorder)

end Links

namespace Store

/-- The links that begin at a place, followed down to a number of levels. -/
def linksWithin (s : Store) : Nat → Option Ref → Option Links
  | _, none => some .absent
  | 0, some _ => none
  | levels + 1, some r => do
    let n ← s.node? r
    let left ← s.linksWithin levels n.left
    let right ← s.linksWithin levels n.right
    return .node r n.measures left right

/-- The links that begin at a place. Those of a tree have no more levels than there are records, as
`Holds.linksFrom` shows; links with more levels lead back to where they come from. -/
def linksFrom (s : Store) (top : Option Ref) : Option Links :=
  s.linksWithin s.size top

/-- What the nodes hold that links lead to. -/
def branchAt (s : Store) : Links → Option Branch
  | .absent => some .absent
  | .node top m l r => do
    let n ← s.node? top
    let measures ← s.find? Record.measures? m
    let left ← s.branchAt l
    let right ← s.branchAt r
    return .node (n.entry measures) left right

/-- The plan that a tree holds. -/
def planAt (s : Store) (t : Ref) : Option Plan := do
  let record ← s.find? Record.tree? t
  let ids ← s.find? Record.ids? record.ids
  let links ← s.linksFrom record.root
  let root ← s.branchAt links
  return { root, sizes := record.sizes, ids }

/-- Whether a reference leads to a node with an id. -/
def hasId (s : Store) (r : Option Ref) (id : String) : Bool :=
  (r.bind s.node?).any (·.id == id)

/-- Whether links begin at a node with an id. -/
def isNode (id : String) (s : Store) (links : Links) : Bool :=
  s.hasId links.top? id

/-- Whether links begin at a node that has a child with an id. -/
def isParent (id : String) (s : Store) (links : Links) : Bool :=
  s.hasId links.left.top? id || s.hasId links.right.top? id

end Store

namespace Stored

/-- The links of a tree. -/
def linksOf (t : Ref) : Stored Links := do
  let record ← tree t
  look (·.linksFrom record.root)

/-- The first node of a tree in pre-order that a condition on its links holds of. -/
def firstNode (t : Ref) (holds : Store → Links → Bool) : Stored (Option Ref) := do
  let links ← linksOf t
  look fun s => some ((links.preorder.find? (holds s)).bind Links.top?)

end Stored

end Contraction
