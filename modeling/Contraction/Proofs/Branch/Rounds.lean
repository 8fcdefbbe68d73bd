import Contraction.Proofs.Branch.Places

/-!
# Walks, round by round

A walk is a loop that takes what is on top of its stack until nothing is left. A round of it
(`downRound`, `upRound`) puts the children that are there on the stack; `walkDown` and `walkUp` put
both sides there and drop what is absent when they come to it, which is the same
(`walkDown_of_ne_absent`, `walkUp_of_ne_absent`).

The height of the stack says nothing about how long a loop goes on, since a round may leave it
higher than before. What a round takes one from is the number of rounds that are pending: one for
each node of what is on the stack in a walk down, two in a walk up, where a node is met once without
and once with its mark. What does not change is the list of the nodes visited and those that the
stack still gives. So a loop that keeps both (`Proceeds`) ends, and by then it has visited the nodes
in their order (`Proceeds.endsAfter`).
-/

namespace Contraction

/-- The loop goes on from a state as long as `round` gives the next one, and it ends after a number
of rounds. The list holds what the rounds have given, one after the other. -/
inductive EndsAfter {σ α : Type} (round : σ → Option (List α × σ)) : Nat → σ → List α → Prop where
  | ended {s : σ} (h : round s = none) : EndsAfter round 0 s []
  | next {s s' : σ} {given rest : List α} {count : Nat} (h : round s = some (given, s'))
      (hrest : EndsAfter round count s' rest) : EndsAfter round (count + 1) s (given ++ rest)

/-- Where the condition holds, each round takes one from the pending ones, gives what comes next in
the order and keeps the condition, and no round is left when none is pending. -/
structure Proceeds {σ α : Type} (round : σ → Option (List α × σ)) (condition : σ → Prop)
    (pending : σ → Nat) (order : σ → List α) : Prop where
  ended : ∀ s, condition s → pending s = 0 → round s = none ∧ order s = []
  next : ∀ s, condition s → pending s ≠ 0 → ∃ given s', round s = some (given, s') ∧
    condition s' ∧ pending s = pending s' + 1 ∧ order s = given ++ order s'

theorem Proceeds.endsAfter {σ α : Type} {round : σ → Option (List α × σ)} {condition : σ → Prop}
    {pending : σ → Nat} {order : σ → List α} (h : Proceeds round condition pending order) {s : σ}
    (hs : condition s) : EndsAfter round (pending s) s (order s) := by
  -- the induction is on the rounds that are pending; the state is another one in each of them
  induction hcount : pending s generalizing s with
  | zero =>
    obtain ⟨hround, horder⟩ := h.ended s hs hcount
    rw [horder]
    exact .ended hround
  | succ count ih =>
    obtain ⟨given, s', hround, hs', hpending, horder⟩ := h.next s hs (by omega)
    rw [horder]
    exact .next hround (ih hs' (by omega))

namespace Branch

variable {b n : Branch} {stack : List Branch} {marked : List (Branch × Bool)}

/-- A round of the walk down: the node on top is visited, and its children take its place. -/
def downRound : List Branch → Option (List Branch × List Branch)
  | [] => none
  | n :: stack => some ([n], n.children ++ stack)

/-- A round of the walk up: a marked node on top is visited, another one is marked, and its children
are put on top of it. -/
def upRound : List (Branch × Bool) → Option (List Branch × List (Branch × Bool))
  | [] => none
  | (n, true) :: stack => some ([n], stack)
  | (n, false) :: stack => some ([], n.children.map (·, false) ++ (n, true) :: stack)

/-- The rounds of the walk down that are pending. -/
def pendingDown : List Branch → Nat
  | [] => 0
  | n :: stack => n.size + pendingDown stack

/-- The rounds of the walk up that are pending. The nodes below a marked one are on the stack
themselves. -/
def pendingUp : List (Branch × Bool) → Nat
  | [] => 0
  | (_, true) :: stack => pendingUp stack + 1
  | (n, false) :: stack => 2 * n.size + pendingUp stack

/-! ## Children on the stack -/

theorem absent_notMem_children (b : Branch) : absent ∉ b.children := by
  simp [children, isAbsent]

theorem size_eq_pendingDown (h : n ≠ absent) : n.size = pendingDown n.children + 1 := by
  cases n with
  | absent => exact absurd rfl h
  | node e l r => cases l <;> cases r <;> simp [children, left, right, isAbsent, size, pendingDown]

theorem pendingDown_append (ns : List Branch) :
    pendingDown (ns ++ stack) = pendingDown ns + pendingDown stack := by
  induction ns with
  | nil => rw [List.nil_append, pendingDown, Nat.zero_add]
  | cons n ns ih => rw [List.cons_append, pendingDown, pendingDown, ih, Nat.add_assoc]

theorem pendingUp_append (ns : List Branch) :
    pendingUp (ns.map (·, false) ++ marked) = 2 * pendingDown ns + pendingUp marked := by
  induction ns with
  | nil => rw [List.map_nil, List.nil_append, pendingDown, Nat.mul_zero, Nat.zero_add]
  | cons n ns ih =>
    rw [List.map_cons, List.cons_append, pendingUp, ih, pendingDown, Nat.mul_add, Nat.add_assoc]

theorem walkDown_of_ne_absent (h : n ≠ absent) :
    walkDown (n :: stack) = n :: walkDown (n.children ++ stack) := by
  cases n with
  | absent => exact absurd rfl h
  | node e l r =>
    rw [walkDown]
    cases l <;> cases r <;> simp [children, left, right, isAbsent, walkDown_cons]

theorem walkUp_of_ne_absent (h : n ≠ absent) :
    walkUp ((n, false) :: marked) = walkUp (n.children.map (·, false) ++ (n, true) :: marked) := by
  cases n with
  | absent => exact absurd rfl h
  | node e l r =>
    rw [walkUp]
    cases l <;> cases r <;> simp [children, left, right, isAbsent, walkUp_cons]

/-! ## What a round does -/

theorem proceeds_downRound : Proceeds downRound (absent ∉ ·) pendingDown walkDown where
  ended stack hstack hpending := by
    cases stack with
    | nil => exact ⟨rfl, by rw [walkDown]⟩
    | cons n stack =>
      have hn : n ≠ absent := fun habsent => hstack (habsent ▸ List.mem_cons_self)
      rw [pendingDown, size_eq_pendingDown hn] at hpending
      omega
  next stack hstack hpending := by
    cases stack with
    | nil => exact absurd rfl hpending
    | cons n stack =>
      rw [List.mem_cons, not_or] at hstack
      have hn : n ≠ absent := Ne.symm hstack.1
      refine ⟨[n], n.children ++ stack, rfl, ?_, ?_, walkDown_of_ne_absent hn⟩
      · rw [List.mem_append, not_or]
        exact ⟨absent_notMem_children n, hstack.2⟩
      · rw [pendingDown, pendingDown_append, size_eq_pendingDown hn]
        omega

theorem proceeds_upRound :
    Proceeds upRound (fun stack => ∀ p ∈ stack, p.1 ≠ absent) pendingUp walkUp where
  ended stack hstack hpending := by
    cases stack with
    | nil => exact ⟨rfl, by rw [walkUp]⟩
    | cons p stack =>
      obtain ⟨n, isMarked⟩ := p
      cases isMarked with
      | true => cases hpending
      | false =>
        have hn : n ≠ absent := hstack (n, false) List.mem_cons_self
        rw [pendingUp, size_eq_pendingDown hn] at hpending
        omega
  next stack hstack hpending := by
    cases stack with
    | nil => exact absurd rfl hpending
    | cons p stack =>
      obtain ⟨n, isMarked⟩ := p
      rw [List.forall_mem_cons] at hstack
      obtain ⟨hn, hrest⟩ : n ≠ absent ∧ ∀ p ∈ stack, p.1 ≠ absent := hstack
      cases isMarked with
      | true => exact ⟨[n], stack, rfl, hrest, rfl, by rw [walkUp, List.singleton_append]⟩
      | false =>
        refine ⟨[], n.children.map (·, false) ++ (n, true) :: stack, rfl, ?_, ?_,
          walkUp_of_ne_absent hn⟩
        · rw [List.forall_mem_append, List.forall_mem_cons]
          refine ⟨fun p hp => ?_, hn, hrest⟩
          obtain ⟨c, hc, rfl⟩ := List.mem_map.mp hp
          exact fun habsent => absent_notMem_children n (habsent ▸ hc)
        · -- the mark of `n` stands for one of its two rounds, its children for what is below it
          rw [pendingUp_append, pendingUp, pendingUp, size_eq_pendingDown hn]
          omega

/-! ## Walks of a branch -/

theorem endsAfter_downRound (h : b ≠ absent) : EndsAfter downRound b.size [b] b.preorder := by
  have hend := proceeds_downRound.endsAfter (s := [b])
    fun habsent => h (List.mem_singleton.mp habsent).symm
  rwa [pendingDown, pendingDown, Nat.add_zero] at hend

theorem endsAfter_upRound (h : b ≠ absent) :
    EndsAfter upRound (2 * b.size) [(b, false)] b.postorder := by
  have hend := proceeds_upRound.endsAfter (s := [(b, false)])
    fun p hp => List.mem_singleton.mp hp ▸ h
  rwa [pendingUp, pendingUp, Nat.add_zero] at hend

/-- The walks from a node end, the one down after a round for each node and the one up after two,
and they visit the nodes in the two orders given by recursion. Either visits every node once, the
one down before and the one up after all nodes below it, and so each is a rearrangement of the
other. -/
theorem endsAfter_walks (h : b ≠ absent) :
    (EndsAfter downRound b.size [b] b.preorder ∧
      EndsAfter upRound (2 * b.size) [(b, false)] b.postorder) ∧
    (b.preorder = b.nodesDown ∧ b.postorder = b.nodesUp) ∧
    (b.EachOnce b.waysDown b.preorder ∧ b.EachOnce b.waysUp b.postorder) ∧
    (∀ upper lower, upper <+: lower → upper ≠ lower → b.follow lower ≠ absent →
      [upper, lower].Sublist b.waysDown ∧ [lower, upper].Sublist b.waysUp) ∧
    b.waysUp.Perm b.waysDown ∧ b.postorder.Perm b.preorder := by
  refine ⟨⟨endsAfter_downRound h, endsAfter_upRound h⟩,
    ⟨preorder_eq_nodesDown b, postorder_eq_nodesUp b⟩,
    ⟨eachOnce_preorder b, eachOnce_postorder b⟩, ?_,
    waysUp_perm_waysDown b, postorder_perm_preorder b⟩
  intro upper lower hbelow hne hlower
  exact ⟨sublist_waysDown hbelow hne hlower, sublist_waysUp hbelow hne hlower⟩

/-- A node with a right child alone, on the left of the topmost one, and two equal leaves. -/
theorem endsAfter_walks_equal_leaves :
    let leaf : Branch := .node { id := "leaf", labels := [some "a"] } .absent .absent
    let bent : Branch := .node { id := "bent", labels := [some "b"] } .absent leaf
    let b : Branch := .node { id := "top", labels := [some "c"] } bent leaf
    b ≠ .absent ∧ EndsAfter downRound 4 [b] [b, bent, leaf, leaf] ∧
      EndsAfter upRound 8 [(b, false)] [leaf, bent, leaf, b] ∧
      b.EachOnce [[], [.left], [.left, .right], [.right]] [b, bent, leaf, leaf] ∧
      b.EachOnce [[.left, .right], [.left], [.right], []] [leaf, bent, leaf, b] ∧
      [[], [.left, .right]].Sublist b.waysDown ∧ [[.left, .right], []].Sublist b.waysUp := by
  intro leaf bent b
  have hdown : b.preorder = [b, bent, leaf, leaf] := by simp [b, bent, leaf]
  have hup : b.postorder = [leaf, bent, leaf, b] := by simp [b, bent, leaf]
  obtain ⟨⟨hendDown, hendUp⟩, -, ⟨honceDown, honceUp⟩, horder, -⟩ := endsAfter_walks (b := b) nofun
  rw [hdown] at hendDown honceDown
  rw [hup] at hendUp honceUp
  exact ⟨nofun, hendDown, hendUp, honceDown, honceUp,
    horder [] [.left, .right] ⟨[.left, .right], rfl⟩ nofun nofun⟩

end Branch

end Contraction
