import Contraction.Branch.Reading

/-!
# The shape of a branch

`Branch.Shows` relates a branch to an expression of its shape with its labels, whatever else the
nodes carry: a leaf to a node without children, a permutation to one with a left child alone, a
contraction to one with two children. The branch of an expression shows it, and the expression of a
branch is one that it shows.
-/

namespace Contraction

/-- The names of the labels, if none is missing. -/
theorem Entry.names_of_labels {e : Entry} {names : List String}
    (h : e.labels = names.map some) : e.names = .ok names := by
  rw [Entry.names, h]
  clear h
  induction names with
  | nil => rfl
  | cons name names ih =>
    rw [List.map_cons, List.mapM_cons, ih]
    rfl

namespace Branch

/-- The branch has the shape of the expression and, place by place, its labels. -/
inductive Shows : Branch → Expression → Prop where
  | leaf {entry : Entry} {labels : List String} (hl : entry.labels = labels.map some) :
      Shows (node entry absent absent) (.leaf labels)
  | permutation {entry : Entry} {child : Branch} {operand : Expression} {labels : List String}
      (hl : entry.labels = labels.map some) (ho : Shows child operand) :
      Shows (node entry child absent) (.permutation operand labels)
  | contraction {entry : Entry} {l r : Branch} {left right : Expression} {labels : List String}
      (hl : entry.labels = labels.map some) (hleft : Shows l left) (hright : Shows r right) :
      Shows (node entry l r) (.contraction left right labels)

/-- Two branches of one shape, with the same labels at every place. -/
inductive Alike : Branch → Branch → Prop where
  | absent : Alike absent absent
  | node {entry other : Entry} {l r l' r' : Branch} (hl : entry.labels = other.labels)
      (hleft : Alike l l') (hright : Alike r r') : Alike (node entry l r) (node other l' r')

/-- Branches that show one expression are alike. -/
theorem Shows.alike {b c : Branch} {e : Expression} (hb : b.Shows e) (hc : c.Shows e) :
    b.Alike c := by
  induction hb generalizing c with
  | leaf hl =>
    cases hc with
    | leaf hl' => exact .node (hl.trans hl'.symm) .absent .absent
  | permutation hl ho ih =>
    cases hc with
    | permutation hl' ho' => exact .node (hl.trans hl'.symm) (ih ho') .absent
  | contraction hl hleft hright ihl ihr =>
    cases hc with
    | contraction hl' hleft' hright' =>
      exact .node (hl.trans hl'.symm) (ihl hleft') (ihr hright')

theorem Alike.refl (b : Branch) : b.Alike b := by
  induction b with
  | absent => exact .absent
  | node e l r ihl ihr => exact .node rfl ihl ihr

/-- Branches that are alike have one expression, or none for one reason. -/
theorem Alike.expression_eq {b c : Branch} (h : b.Alike c) : b.expression = c.expression := by
  induction h with
  | absent => rfl
  | @node e f l r l' r' hl hleft hright ihl ihr =>
    have hnames : e.names = f.names := by rw [Entry.names, Entry.names, hl]
    cases hleft with
    | absent =>
      cases hright with
      | absent => simp only [expression, hnames]
      | node => simp only [expression, hnames, ihr]
    | node =>
      cases hright with
      | absent => simp only [expression, hnames, ihl]
      | node => simp only [expression, hnames, ihl, ihr]

theorem Shows.ne_absent {b : Branch} {x : Expression} (h : b.Shows x) : b ≠ absent := by
  cases h <;> exact fun hb => by cases hb

/-- The expression that a branch shows is the one it has. -/
theorem Shows.expression_eq {b : Branch} {x : Expression} (h : b.Shows x) :
    b.expression = .ok x := by
  induction h with
  | leaf hl =>
    rw [expression, Entry.names_of_labels hl]
    rfl
  | permutation hl ho ih =>
    rw [expression, ih, Entry.names_of_labels hl]
    · rfl
    · exact ho.ne_absent
  | contraction hl hleft hright ihl ihr =>
    rw [expression, ihl, ihr, Entry.names_of_labels hl]
    · rfl
    · exact fun _ => hright.ne_absent
    · exact hright.ne_absent

/-- A mark changes neither shape nor labels. -/
theorem Shows.markDeletable {b : Branch} {e : Expression} (h : b.Shows e) :
    b.markDeletable.Shows e := by
  cases h with
  | leaf hl => exact .leaf hl
  | permutation hl ho => exact .permutation hl ho
  | contraction hl hleft hright => exact .contraction hl hleft hright

/-- The branch that is made of an expression shows it. -/
theorem shows_ofExpression (ids : NodeIds) (e : Expression) : (ofExpression ids e).1.Shows e := by
  induction e generalizing ids with
  | leaf labels => exact .leaf rfl
  | permutation operand labels ih => exact .permutation rfl (ih ids).markDeletable
  | contraction left right labels ihl ihr => exact .contraction rfl (ihl ids) (ihr _)

end Branch

end Contraction
