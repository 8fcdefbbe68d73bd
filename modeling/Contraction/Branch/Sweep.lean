import Contraction.Branch

/-!
# Sweeps

A sweep visits the nodes of a branch in post-order, changes what they carry and gathers what it
sees. Where a visit fails the sweep ends, and the branch keeps the changes made up to then.
`sweep_of_total` says that a sweep whose visits never fail and gather nothing is a `mapEntries`.
-/

namespace Contraction.Branch

variable {σ φ : Type}

/-- Visits the nodes in post-order. A visit gets what has been gathered, what the node carries and
the branches below it. The node at which the sweep ends keeps its change too. -/
def sweep (visit : σ → Entry → Branch → Branch → σ × Entry × Option φ) :
    σ → Branch → σ × Branch × Option φ
  | s, absent => (s, absent, none)
  | s, node e l r =>
    match sweep visit s l with
    | (s, l, some fault) => (s, node e l r, some fault)
    | (s, l, none) =>
      match sweep visit s r with
      | (s, r, some fault) => (s, node e l r, some fault)
      | (s, r, none) =>
        match visit s e l r with
        | (s, e, fault) => (s, node e l r, fault)

theorem sweep_of_total (f : Entry → Entry) (s : σ) (b : Branch) :
    sweep (fun s e _ _ => (s, f e, (none : Option φ))) s b = (s, b.mapEntries f, none) := by
  induction b with
  | absent => rfl
  | node e l r ihl ihr => simp [sweep, mapEntries, ihl, ihr]

end Contraction.Branch
