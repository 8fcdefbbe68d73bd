import Contraction.Proofs.Branch.Sweep
import Contraction.Proofs.Branch.Unwrapping
import Contraction.Proofs.Plan.Steps

/-!
# Operands exchanged again and again

Each exchange looks for its node anew, in a tree that earlier exchanges have changed. Where ids
differ and no right child stands alone, what it does can be said without the search: `exchange`
goes through the whole tree and exchanges the operands of the contractions that are chosen. Two such
changes are one, at the contractions that just one of them has chosen, so a series of exchanges
comes to one change, at those that it names an odd number of times.

* `getD_swapAt` — one exchange as a change of the chosen contractions
* `exchange_exchange` — two changes as one
* `exchange_eq_iff` — where ids differ, other choices give other branches
* `Plan.swapAll_eq` — a series of exchanges as one change
* `Plan.swapAll_parity` — which series have the same outcome
-/

namespace Contraction

namespace Branch

variable {b b' l r : Branch} {e : Entry} {id : String} {chosen other : String → Bool}

/-- The operands of the chosen contractions are exchanged. -/
def exchange (chosen : String → Bool) : Branch → Branch
  | absent => absent
  | node e l r =>
    if chosen e.id && (node e l r).isContraction then
      node e (r.exchange chosen) (l.exchange chosen)
    else node e (l.exchange chosen) (r.exchange chosen)

theorem exchange_of_chosen (hbinary : (node e l r).isContraction = true)
    (h : chosen e.id = true) :
    (node e l r).exchange chosen = node e (r.exchange chosen) (l.exchange chosen) := by
  rw [exchange, h, hbinary]
  rfl

theorem exchange_of_not_chosen (h : chosen e.id = false) :
    (node e l r).exchange chosen = node e (l.exchange chosen) (r.exchange chosen) := by
  rw [exchange, h]
  rfl

theorem exchange_of_not_isContraction (h : (node e l r).isContraction = false) :
    (node e l r).exchange chosen = node e (l.exchange chosen) (r.exchange chosen) := by
  rw [exchange, h, Bool.and_false]
  rfl

/-! ## What an exchange leaves alone -/

@[simp] theorem isAbsent_exchange (b : Branch) : (b.exchange chosen).isAbsent = b.isAbsent := by
  cases b with
  | absent => rfl
  | node e l r =>
    rw [exchange]
    split <;> rfl

theorem ids_exchange (b : Branch) : (b.exchange chosen).ids.Perm b.ids := by
  induction b with
  | absent => exact List.Perm.refl _
  | node e l r ihl ihr =>
    rw [exchange]
    split
    · rw [ids_node, ids_node]
      exact (List.perm_append_comm.trans (ihl.append ihr)).cons _
    · rw [ids_node, ids_node]
      exact (ihl.append ihr).cons _

theorem leftFirst_exchange (h : b.LeftFirst) : (b.exchange chosen).LeftFirst := by
  induction b with
  | absent => exact h
  | node e l r ihl ihr =>
    obtain ⟨hshape, hl, hr⟩ := leftFirst_node.mp h
    rw [exchange]
    split
    · next hswap =>
      -- with two operands there is still one on the left side
      rw [isContraction_node, Bool.and_eq_true, Bool.not_eq_true', Bool.or_eq_false_iff] at hswap
      refine leftFirst_node.mpr ⟨fun habsent => ?_, ihr hr, ihl hl⟩
      rw [← isAbsent_iff, isAbsent_exchange, hswap.2.2] at habsent
      cases habsent
    · refine leftFirst_node.mpr ⟨?_, ihl hl, ihr hr⟩
      rw [← isAbsent_iff, ← isAbsent_iff, isAbsent_exchange, isAbsent_exchange, isAbsent_iff,
        isAbsent_iff]
      exact hshape

/-! ## Which contractions are chosen -/

/-- Only the choice among the contractions of the branch matters. -/
theorem exchange_congr (h : ∀ e l r, node e l r ∈ b.preorder → (node e l r).isContraction →
    chosen e.id = other e.id) : b.exchange chosen = b.exchange other := by
  induction b with
  | absent => rfl
  | node e l r ihl ihr =>
    have hl : l.exchange chosen = l.exchange other :=
      ihl fun e' l' r' hn => h e' l' r' (by simp [hn])
    have hr : r.exchange chosen = r.exchange other :=
      ihr fun e' l' r' hn => h e' l' r' (by simp [hn])
    rw [exchange, exchange, hl, hr]
    by_cases hbinary : (node e l r).isContraction = true
    · rw [h e l r (by simp) hbinary]
    · rw [Bool.not_eq_true] at hbinary
      rw [hbinary, Bool.and_false, Bool.and_false]

theorem exchange_none (b : Branch) : (b.exchange fun _ => false) = b := by
  induction b with
  | absent => rfl
  | node e l r ihl ihr =>
    rw [exchange, ihl, ihr]
    rfl

theorem exchange_eq_self (h : ∀ e l r, node e l r ∈ b.preorder → (node e l r).isContraction →
    chosen e.id = false) : b.exchange chosen = b :=
  (exchange_congr h).trans (exchange_none b)

theorem exchange_of_not_mem (h : id ∉ b.ids) : b.exchange (· == id) = b := by
  refine exchange_eq_self fun e l r hn _ => ?_
  rw [beq_eq_false_iff_ne]
  rintro rfl
  exact h (List.mem_filterMap.mpr ⟨_, hn, rfl⟩)

/-- Two changes are one at the contractions that just one of them has chosen: where both have, the
operands are exchanged and exchanged back. -/
theorem exchange_exchange (b : Branch) : (b.exchange chosen).exchange other =
    b.exchange fun id => chosen id ^^ other id := by
  induction b with
  | absent => rfl
  | node e l r ihl ihr =>
    have hkept : (node e (l.exchange chosen) (r.exchange chosen)).isContraction =
        (node e l r).isContraction := by
      simp only [isContraction_node, isAbsent_exchange]
    have hturned : (node e (r.exchange chosen) (l.exchange chosen)).isContraction =
        (node e l r).isContraction := by
      simp only [isContraction_node, isAbsent_exchange, Bool.or_comm]
    by_cases hbinary : (node e l r).isContraction = true
    · rw [hbinary] at hkept hturned
      cases hfirst : chosen e.id with
      | false =>
        rw [exchange_of_not_chosen hfirst]
        cases hsecond : other e.id with
        | false =>
          rw [exchange_of_not_chosen hsecond, ihl, ihr,
            exchange_of_not_chosen (by rw [hfirst, hsecond]; rfl)]
        | true =>
          rw [exchange_of_chosen hkept hsecond, ihl, ihr,
            exchange_of_chosen hbinary (by rw [hfirst, hsecond]; rfl)]
      | true =>
        rw [exchange_of_chosen hbinary hfirst]
        cases hsecond : other e.id with
        | false =>
          rw [exchange_of_not_chosen hsecond, ihl, ihr,
            exchange_of_chosen hbinary (by rw [hfirst, hsecond]; rfl)]
        | true =>
          rw [exchange_of_chosen hturned hsecond, ihl, ihr,
            exchange_of_not_chosen (by rw [hfirst, hsecond]; rfl)]
    · rw [Bool.not_eq_true] at hbinary
      rw [hbinary] at hkept
      rw [exchange_of_not_isContraction hbinary, exchange_of_not_isContraction hkept,
        exchange_of_not_isContraction hbinary, ihl, ihr]

/-- Branches that have no id in common do not become equal by exchanges. -/
theorem exchange_ne_exchange (hl : l.isAbsent = false) (hids : ∀ id ∈ l.ids, id ∉ r.ids) :
    l.exchange chosen ≠ r.exchange other := by
  intro heq
  cases l with
  | absent => cases hl
  | node e l' r' =>
    have hleft : e.id ∈ (node e l' r').ids := by simp
    have hright : e.id ∈ (r.exchange other).ids := by
      rw [← heq]
      exact (ids_exchange _).mem_iff.mpr hleft
    exact hids _ hleft ((ids_exchange r).mem_iff.mp hright)

/-- The operands of a contraction have no id in common, so it is seen whether they have been
exchanged. -/
theorem chosen_eq_of_exchange (hids : (node e l r).ids.Nodup)
    (hbinary : (node e l r).isContraction = true)
    (h : (node e l r).exchange chosen = (node e l r).exchange other) :
    chosen e.id = other e.id := by
  rw [ids_node, List.nodup_cons, List.nodup_append] at hids
  have hl : l.isAbsent = false := by
    rw [isContraction_node, Bool.not_eq_true', Bool.or_eq_false_iff] at hbinary
    exact hbinary.1
  have hne : ∀ c d : String → Bool, l.exchange c ≠ r.exchange d := fun c d =>
    exchange_ne_exchange hl fun _ hleft hright => hids.2.2.2 _ hleft _ hright rfl
  cases hfirst : chosen e.id <;> cases hsecond : other e.id
  · rfl
  · rw [exchange_of_not_chosen hfirst, exchange_of_chosen hbinary hsecond] at h
    exact absurd (node.inj h).2.1 (hne chosen other)
  · rw [exchange_of_chosen hbinary hfirst, exchange_of_not_chosen hsecond] at h
    exact absurd (node.inj h).2.1.symm (hne other chosen)
  · rfl

/-- Where ids differ, different choices among the contractions give different branches. -/
theorem exchange_eq_iff (hids : b.ids.Nodup) : b.exchange chosen = b.exchange other ↔
    ∀ e l r, node e l r ∈ b.preorder → (node e l r).isContraction → chosen e.id = other e.id := by
  refine ⟨fun h => ?_, exchange_congr⟩
  induction b with
  | absent => simp
  | node e l r ihl ihr =>
    have htop : (node e l r).isContraction = true → chosen e.id = other e.id :=
      fun hbinary => chosen_eq_of_exchange hids hbinary h
    have hsides : l.exchange chosen = l.exchange other ∧ r.exchange chosen = r.exchange other := by
      by_cases hbinary : (node e l r).isContraction = true
      · rw [exchange, exchange, ← htop hbinary] at h
        split at h
        · exact (node.inj h).2.symm
        · exact (node.inj h).2
      · rw [Bool.not_eq_true] at hbinary
        rw [exchange_of_not_isContraction hbinary, exchange_of_not_isContraction hbinary] at h
        exact (node.inj h).2
    rw [ids_node, List.nodup_cons, List.nodup_append] at hids
    intro e' l' r' hn hbinary
    rw [preorder_node, List.mem_cons, List.mem_append] at hn
    rcases hn with heq | hn | hn
    · obtain ⟨rfl, rfl, rfl⟩ := node.inj heq
      exact htop hbinary
    · exact ihl hids.2.1 hsides.1 e' l' r' hn hbinary
    · exact ihr hids.2.2.1 hsides.2 e' l' r' hn hbinary

/-! ## One exchange -/

/-- A contraction turned round, where ids differ, is the only node that is chosen by its id. -/
theorem Replaced.eq_exchange (h : Replaced (node e l r) (node e r l) b b')
    (hbinary : (node e l r).isContraction = true) (hids : b.ids.Nodup) :
    b' = b.exchange (· == e.id) := by
  have hid : e.id ∈ (node e l r).ids := by simp
  induction h with
  | here =>
    rw [ids_node, List.nodup_cons, List.mem_append, not_or] at hids
    have hturned : (node e l r).exchange (· == e.id) =
        node e (r.exchange (· == e.id)) (l.exchange (· == e.id)) :=
      exchange_of_chosen hbinary (beq_self_eq_true e.id)
    rw [hturned, exchange_of_not_mem hids.1.1, exchange_of_not_mem hids.1.2]
  | @left parent l' l'' r' h ih =>
    rw [ids_node, List.nodup_cons, List.mem_append, not_or, List.nodup_append] at hids
    have hmem : e.id ∈ l'.ids := h.symm.ids_subset hid
    have hright : e.id ∉ r'.ids := fun hright => hids.2.2.2 _ hmem _ hright rfl
    have hparent : (node parent l' r').exchange (· == e.id) =
        node parent (l'.exchange (· == e.id)) (r'.exchange (· == e.id)) :=
      exchange_of_not_chosen (beq_eq_false_iff_ne.mpr fun heq => hids.1.1 (heq ▸ hmem))
    rw [hparent, exchange_of_not_mem hright, ← ih hids.2.1]
  | @right parent l' r' r'' h ih =>
    rw [ids_node, List.nodup_cons, List.mem_append, not_or, List.nodup_append] at hids
    have hmem : e.id ∈ r'.ids := h.symm.ids_subset hid
    have hleft : e.id ∉ l'.ids := fun hleft => hids.2.2.2 _ hleft _ hmem rfl
    have hparent : (node parent l' r').exchange (· == e.id) =
        node parent (l'.exchange (· == e.id)) (r'.exchange (· == e.id)) :=
      exchange_of_not_chosen (beq_eq_false_iff_ne.mpr fun heq => hids.1.2 (heq ▸ hmem))
    rw [hparent, exchange_of_not_mem hleft, ← ih hids.2.2.1]

/-- An exchange, or leaving all as it is where it does not apply, is a change of the contraction
with the id, if there is one. -/
theorem getD_swapAt (hids : b.ids.Nodup) (hleft : b.LeftFirst) (id : String) :
    (b.swapAt id).getD b = b.exchange (· == id) := by
  cases hswap : b.swapAt id with
  | none =>
    refine (exchange_eq_self fun e l r hn hbinary => ?_).symm
    rw [beq_eq_false_iff_ne]
    rintro rfl
    obtain ⟨b', hb'⟩ := exists_swapAt (find?_of_mem hids hn) hbinary
    cases hswap.symm.trans hb'
  | some b' =>
    obtain ⟨e, l, r, hfind, hr, hreplaced⟩ := swapAt_eq_some hswap
    obtain rfl : e.id = id := Option.some.inj (id?_of_find? hfind)
    have hl : l ≠ absent := fun hl => hr (hleft _ (mem_of_find? hfind) hl)
    have hbinary : (node e l r).isContraction = true := by
      rw [isContraction_node, Bool.eq_false_iff.mpr (mt isAbsent_iff.mp hl),
        Bool.eq_false_iff.mpr (mt isAbsent_iff.mp hr)]
      rfl
    exact hreplaced.eq_exchange hbinary hids

end Branch

/-! ## Series of exchanges -/

namespace Plan

/-- The plan after exchanges at some ids, one after the other. One that does not apply leaves the
plan as it is. -/
def swapAll (p : Plan) (ids : List String) : Plan :=
  ids.foldl (fun p id => (p.swapAt id).getD p) p

/-- An id is named an odd number of times. -/
def namedOddly (ids : List String) (id : String) : Bool :=
  ids.count id % 2 == 1

theorem namedOddly_cons (first : String) (ids : List String) :
    namedOddly (first :: ids) = fun id => (id == first) ^^ namedOddly ids id := by
  funext id
  unfold namedOddly
  rw [List.count_cons]
  by_cases h : id = first
  · subst h
    rw [beq_self_eq_true, if_pos rfl, Bool.true_xor, Bool.eq_iff_iff, Bool.not_eq_true',
      beq_iff_eq, beq_eq_false_iff_ne]
    omega
  · rw [beq_eq_false_iff_ne.mpr h, if_neg (by rw [beq_iff_eq]; exact Ne.symm h), Bool.false_xor,
      Nat.add_zero]

theorem namedOddly_eq_iff {first second : List String} {id : String} :
    namedOddly first id = namedOddly second id ↔ first.count id % 2 = second.count id % 2 := by
  unfold namedOddly
  rw [Bool.eq_iff_iff, beq_iff_eq, beq_iff_eq]
  omega

theorem getD_swapAt (p : Plan) (id : String) :
    (p.swapAt id).getD p = { p with root := (p.root.swapAt id).getD p.root } := by
  unfold swapAt
  cases p.root.swapAt id <;> rfl

/-- A series of exchanges is one change, at the contractions named an odd number of times. -/
theorem swapAll_eq (p : Plan) (hids : p.root.ids.Nodup) (hleft : p.root.LeftFirst)
    (ids : List String) :
    p.swapAll ids = { p with root := p.root.exchange (namedOddly ids) } := by
  induction ids generalizing p with
  | nil =>
    show p = { p with root := p.root.exchange fun _ => false }
    rw [Branch.exchange_none]
  | cons id ids ih =>
    have hfirst : (p.swapAt id).getD p = { p with root := p.root.exchange (· == id) } := by
      rw [getD_swapAt, Branch.getD_swapAt hids hleft]
    show ((p.swapAt id).getD p).swapAll ids = _
    rw [hfirst, ih _ ((Branch.ids_exchange p.root).nodup_iff.mpr hids)
      (Branch.leftFirst_exchange hleft), namedOddly_cons]
    dsimp only
    rw [Branch.exchange_exchange]

/-- Two series of exchanges have the same outcome exactly if both name each contraction an even or
both an odd number of times, whatever else they name. So two exchanges can be made in either order,
and a series restores the plan exactly if it names each contraction an even number of times. -/
theorem swapAll_parity (p : Plan) (hids : p.root.ids.Nodup) (hleft : p.root.LeftFirst) :
    (∀ first second : List String, p.swapAll first = p.swapAll second ↔
      ∀ e l r, Branch.node e l r ∈ p.root.preorder → (Branch.node e l r).isContraction →
        first.count e.id % 2 = second.count e.id % 2) ∧
    (∀ x y, p.swapAll [x, y] = p.swapAll [y, x]) ∧
    ∀ ids : List String, p.swapAll ids = p ↔
      ∀ e l r, Branch.node e l r ∈ p.root.preorder → (Branch.node e l r).isContraction →
        ids.count e.id % 2 = 0 := by
  have halike : ∀ first second : List String, p.swapAll first = p.swapAll second ↔
      ∀ e l r, Branch.node e l r ∈ p.root.preorder → (Branch.node e l r).isContraction →
        first.count e.id % 2 = second.count e.id % 2 := by
    intro first second
    rw [swapAll_eq p hids hleft, swapAll_eq p hids hleft, Plan.mk.injEq, and_iff_left ⟨rfl, rfl⟩,
      Branch.exchange_eq_iff hids]
    simp only [namedOddly_eq_iff]
  refine ⟨halike, fun x y => ?_, fun ids => ?_⟩
  · refine (halike [x, y] [y, x]).mpr fun e l r _ _ => ?_
    rw [(List.Perm.swap y x []).count_eq]
  · show p.swapAll ids = p.swapAll [] ↔ _
    exact halike ids []

/-- One contraction below another, exchanged after it and before it; leaves, permutations and ids
that no node has may be named as well. -/
theorem swapAll_parity_nested :
    let leaf (id : String) : Branch := .node { id, labels := [some id] } .absent .absent
    let inner : Branch := .node { id := "inner", labels := [some "a", some "b"] }
      (leaf "a") (leaf "b")
    let turned : Branch := .node { id := "turned", labels := [some "c"] } (leaf "c") .absent
    let p : Plan := { root := .node { id := "outer", labels := [some "c"] } inner turned }
    (p.root.ids.Nodup ∧ p.root.LeftFirst) ∧
      p.swapAll ["outer", "inner", "turned", "outer", "outer"] =
        p.swapAll ["inner", "outside", "outer", "a"] ∧
      p.swapAll ["inner", "outer"] = p.swapAll ["outer", "inner"] ∧
      p.swapAll ["outer", "inner", "a", "inner", "outer"] = p := by
  intro leaf inner turned p
  have hproper : p.root.ids.Nodup ∧ p.root.LeftFirst :=
    ⟨by decide +kernel,
      by simp [p, inner, turned, leaf, Branch.leftFirst_node, Branch.leftFirst_absent]⟩
  obtain ⟨halike, hcomm, hrestored⟩ := swapAll_parity p hproper.1 hproper.2
  -- the contractions are the outer and the inner node
  have hbinary : ∀ e l r, Branch.node e l r ∈ p.root.preorder → (Branch.node e l r).isContraction →
      e.id = "outer" ∨ e.id = "inner" := by
    intro e l r hn hcontraction
    simp only [p, inner, turned, leaf, Branch.preorder_node, Branch.preorder_absent,
      List.mem_cons, List.mem_append, List.not_mem_nil, or_false, Branch.node.injEq] at hn
    rcases hn with ⟨rfl, rfl, rfl⟩ | (⟨rfl, rfl, rfl⟩ | ⟨rfl, rfl, rfl⟩ | ⟨rfl, rfl, rfl⟩) |
      ⟨rfl, rfl, rfl⟩ | ⟨rfl, rfl, rfl⟩
    all_goals first | exact .inl rfl | exact .inr rfl | cases hcontraction
  refine ⟨hproper, (halike _ _).mpr fun e l r hn hb => ?_, hcomm _ _,
    (hrestored _).mpr fun e l r hn hb => ?_⟩
  · rcases hbinary e l r hn hb with h | h <;> rw [h] <;> decide
  · rcases hbinary e l r hn hb with h | h <;> rw [h] <;> decide

end Plan

end Contraction
