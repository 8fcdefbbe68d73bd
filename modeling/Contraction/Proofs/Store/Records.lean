import Contraction.Store.Links
import Mathlib.Data.List.Nodup
import Mathlib.Data.List.Perm.Subperm

/-!
# What the records of a store hold

`Store.Holds s links b` says that the nodes that the links lead to are those of a branch. It looks
at the records of the links alone, so it outlasts all that is written elsewhere (`Holds.congr`).
`Links.uses` counts how often a place stands among the references; where none stands twice, a write
to one part of a tree leaves its other parts alone.

`Store.Changes s s' links links'` is what work on the records of one part may do: it writes to the
records of that part and makes new ones. What it does to a child it does to the node above
(`Holds.change_left`, `Holds.change_right`), and one piece of work may follow another
(`Changes.trans`).
-/

namespace Contraction

namespace Stored

variable {α β : Type} {x : Stored α} {f : α → Stored β} {s s' : Store} {a : α}

/-- What follows begins with what the work before it leaves. -/
theorem bind_of_eq (h : x s = some (a, s')) : (x >>= f) s = f a s' := by
  show (x s).bind (fun p => f p.1 p.2) = _
  rw [h]
  rfl

theorem alloc_bind (record : Record) (f : Ref → Stored β) :
    (alloc record >>= f) s = f s.size (s.push record) :=
  rfl

theorem write_bind (r : Ref) (record : Record) (f : Unit → Stored β) :
    (write r record >>= f) s = f () (s.set r record) :=
  rfl

theorem look_bind (see : Store → α) (f : α → Stored β) :
    (look (fun s => some (see s)) >>= f) s = f (see s) s :=
  rfl

theorem look_of_eq (see : Store → Option α) (h : see s = some a) : look see s = some (a, s) := by
  unfold look
  rw [h]
  rfl

theorem node_of_eq {r : Ref} {n : NodeRecord} (h : s.node? r = some n) :
    node r s = some (n, s) :=
  look_of_eq (·.node? r) h

theorem tree_of_eq {r : Ref} {t : TreeRecord} (h : s.find? Record.tree? r = some t) :
    tree r s = some (t, s) :=
  look_of_eq (·.find? Record.tree? r) h

theorem ids_of_eq {r : Ref} {source : NodeIds} (h : s.find? Record.ids? r = some source) :
    ids r s = some (source, s) :=
  look_of_eq (·.find? Record.ids? r) h

end Stored

/-! ## Records of entries -/

section

variable (e : Entry) (left right : Option Ref) (m : Ref)

theorem Entry.record_left : (e.record left right m).left = left :=
  rfl

theorem Entry.record_right : (e.record left right m).right = right :=
  rfl

theorem Entry.record_unmark : (e.record left right m).unmark = e.unmark.record left right m :=
  rfl

theorem Entry.record_side (onLeft : Bool) :
    (e.record left right m).side onLeft = if onLeft then left else right :=
  rfl

end

/-! ## References that are used once -/

namespace Links

/-- The references of all nodes and of their measures. -/
def refs : Links → List Nat
  | absent => []
  | node top m l r => top :: m :: (l.refs ++ r.refs)

/-- How often a place stands among the references. -/
def uses (q : Nat) (links : Links) : Nat :=
  links.refs.count q

theorem uses_node {top m q : Nat} {l r : Links} : (node top m l r).uses q =
    (if top = q then 1 else 0) + (if m = q then 1 else 0) + l.uses q + r.uses q := by
  unfold uses
  rw [refs, List.count_cons, List.count_cons, List.count_append]
  simp only [beq_iff_eq]
  omega

/-- No place stands twice among the references. -/
def Once (links : Links) : Prop :=
  ∀ q, links.uses q ≤ 1

variable {links : Links} {top m q : Nat} {l r : Links}

theorem Once.left (h : (node top m l r).Once) : l.Once := by
  intro q
  have := h q
  rw [uses_node] at this
  omega

theorem Once.right (h : (node top m l r).Once) : r.Once := by
  intro q
  have := h q
  rw [uses_node] at this
  omega

theorem uses_node_eq_zero :
    (node top m l r).uses q = 0 ↔ top ≠ q ∧ m ≠ q ∧ l.uses q = 0 ∧ r.uses q = 0 := by
  rw [uses_node]
  by_cases htop : top = q <;> by_cases hm : m = q <;> simp [htop, hm]

/-- The record of a node and that of its measures are neither one record nor below the node. -/
theorem Once.node (h : (node top m l r).Once) :
    top ≠ m ∧ (l.uses top = 0 ∧ r.uses top = 0) ∧ l.uses m = 0 ∧ r.uses m = 0 := by
  have htop := h top
  have hm := h m
  rw [uses_node] at htop hm
  rw [if_pos rfl] at htop
  have hne : top ≠ m := by
    intro heq
    rw [if_pos heq.symm] at htop
    omega
  rw [if_neg hne.symm] at htop
  rw [if_neg hne, if_pos rfl] at hm
  omega

/-- What is used on one side of a node is not used on the other. -/
theorem Once.disjoint (h : (Links.node top m l r).Once) (q : Nat) :
    l.uses q = 0 ∨ r.uses q = 0 := by
  have := h q
  rw [uses_node] at this
  omega

/-- How many nodes stand over each other at most. -/
def levels : Links → Nat
  | absent => 0
  | node _ _ l r => max l.levels r.levels + 1

theorem levels_le_length_refs (links : Links) : links.levels ≤ links.refs.length := by
  induction links with
  | absent => exact Nat.le_refl _
  | node top m l r ihl ihr =>
    rw [levels, refs, List.length_cons, List.length_cons, List.length_append]
    omega

/-- Where no place is used twice, there are no more levels than places. -/
theorem Once.levels_le (h : links.Once) {bound : Nat} (hlt : ∀ q, links.uses q ≠ 0 → q < bound) :
    links.levels ≤ bound := by
  have hnodup : links.refs.Nodup := List.nodup_iff_count_le_one.mpr h
  have hsubset : links.refs ⊆ List.range bound := by
    intro q hq
    exact List.mem_range.mpr (hlt q (Nat.ne_of_gt (List.count_pos_iff.mpr hq)))
  calc links.levels
    _ ≤ links.refs.length := links.levels_le_length_refs
    _ ≤ (List.range bound).length := (List.subperm_of_subset hnodup hsubset).length_le
    _ = bound := List.length_range

end Links

namespace Store

variable {s s' s'' : Store} {links links' links'' l r l' r' : Links} {b b' left right : Branch}
  {e : Entry} {top m q bound : Nat}

/-! ## Records that are kept -/

/-- The records in front of a place are as they were. -/
structure Kept (bound : Nat) (s s' : Store) : Prop where
  size_le : s.size ≤ s'.size
  get? : ∀ q < bound, s'.get? q = s.get? q

theorem Kept.refl (bound : Nat) (s : Store) : Kept bound s s :=
  ⟨Nat.le_refl _, fun _ _ => rfl⟩

theorem Kept.trans (h : Kept bound s s') (h' : Kept bound s' s'') : Kept bound s s'' :=
  ⟨Nat.le_trans h.size_le h'.size_le, fun q hq => (h'.get? q hq).trans (h.get? q hq)⟩

theorem Kept.mono {less : Nat} (h : Kept bound s s') (hle : less ≤ bound) : Kept less s s' :=
  ⟨h.size_le, fun q hq => h.get? q (by omega)⟩

/-- A record is still there. -/
theorem Kept.get?_eq {x : Record} (h : Kept s.size s s') (hx : s.get? q = some x) :
    s'.get? q = some x :=
  (h.get? q (lt_size_of_get? hx)).trans hx

theorem kept_push (s : Store) (x : Record) : Kept s.size s (s.push x) where
  size_le := by rw [size_push]; omega
  get? := by
    intro q hq
    rw [get?_push, if_neg (by omega)]

/-! ## What records hold -/

/-- The nodes that the links lead to are those of a branch. -/
inductive Holds (s : Store) : Links → Branch → Prop where
  | absent : Holds s .absent .absent
  | node {top m : Nat} {l r : Links} {e : Entry} {left right : Branch}
      (htop : s.node? top = some (e.record l.top? r.top? m))
      (hm : s.find? Record.measures? m = some e.measures)
      (hl : Holds s l left) (hr : Holds s r right) :
      Holds s (.node top m l r) (.node e left right)

theorem find?_eq_some {α : Type} {kind : Record → Option α} {a : α} (h : s.find? kind q = some a) :
    ∃ x, s.get? q = some x ∧ kind x = some a :=
  Option.bind_eq_some_iff.mp h

/-- A reference leads to a node or to its measures. -/
theorem Holds.get? (h : s.Holds links b) (hq : links.uses q ≠ 0) :
    ∃ x, s.get? q = some x ∧ (x.node?.isSome ∨ x.measures?.isSome) := by
  induction h with
  | absent => exact absurd rfl hq
  | @node top m l r e left right htop hm hl hr ihl ihr =>
    rw [ne_eq, Links.uses_node_eq_zero] at hq
    by_cases htopq : top = q
    · subst htopq
      obtain ⟨x, hx, hnode⟩ := find?_eq_some htop
      exact ⟨x, hx, Or.inl (by rw [hnode]; rfl)⟩
    by_cases hmq : m = q
    · subst hmq
      obtain ⟨x, hx, hmeasures⟩ := find?_eq_some hm
      exact ⟨x, hx, Or.inr (by rw [hmeasures]; rfl)⟩
    by_cases hlq : l.uses q = 0
    · exact ihr fun hrq => hq ⟨htopq, hmq, hlq, hrq⟩
    · exact ihl hlq

theorem Holds.lt_size (h : s.Holds links b) (hq : links.uses q ≠ 0) : q < s.size := by
  obtain ⟨x, hx, -⟩ := h.get? hq
  exact lt_size_of_get? hx

theorem Holds.uses_eq_zero (h : s.Holds links b) (hq : s.size ≤ q) : links.uses q = 0 := by
  by_cases hzero : links.uses q = 0
  · exact hzero
  · have := h.lt_size hzero
    omega

/-- What the links lead to is read from the records of the links alone. -/
theorem Holds.congr (h : s.Holds links b)
    (hsame : ∀ q, links.uses q ≠ 0 → s'.get? q = s.get? q) : s'.Holds links b := by
  induction h with
  | absent => exact .absent
  | @node top m l r e left right htop hm hl hr ihl ihr =>
    have huses : ∀ q, (Links.node top m l r).uses q = 0 → _ := fun q => Links.uses_node_eq_zero.mp
    refine .node ?_ ?_ (ihl fun q hq => ?_) (ihr fun q hq => ?_)
    · exact (find?_congr (hsame top fun hz => (huses top hz).1 rfl)).trans htop
    · exact (find?_congr (hsame m fun hz => (huses m hz).2.1 rfl)).trans hm
    · exact hsame q fun hz => hq (huses q hz).2.2.1
    · exact hsame q fun hz => hq (huses q hz).2.2.2

theorem Holds.kept (h : s.Holds links b) (hkept : Kept s.size s s') : s'.Holds links b :=
  h.congr fun q hq => hkept.get? q (h.lt_size hq)

theorem Holds.top?_isSome (h : s.Holds links b) : links.top?.isSome = !b.isAbsent := by
  cases h <;> rfl

theorem Holds.top?_isNone (h : s.Holds links b) : links.top?.isNone = b.isAbsent := by
  cases h <;> rfl

theorem Holds.linksWithin (h : s.Holds links b) {n : Nat} (hn : links.levels ≤ n) :
    s.linksWithin n links.top? = some links := by
  induction h generalizing n with
  | absent => cases n <;> rfl
  | @node top m l r e left right htop hm hl hr ihl ihr =>
    rw [Links.levels] at hn
    obtain ⟨n, rfl⟩ : ∃ k, n = k + 1 := ⟨n - 1, by omega⟩
    show (s.node? top).bind _ = _
    rw [htop]
    show (s.linksWithin n l.top?).bind _ = _
    rw [ihl (by omega)]
    show (s.linksWithin n r.top?).bind _ = _
    rw [ihr (by omega)]
    rfl

/-- The links are those that are read from the store. -/
theorem Holds.linksFrom (h : s.Holds links b) (honce : links.Once) :
    s.linksFrom links.top? = some links :=
  h.linksWithin (honce.levels_le fun _ => h.lt_size)

theorem Holds.branchAt (h : s.Holds links b) : s.branchAt links = some b := by
  induction h with
  | absent => rfl
  | node htop hm hl hr ihl ihr =>
    unfold Store.branchAt
    rw [htop, hm, ihl, ihr]
    rfl

theorem Holds.hasId (h : s.Holds links b) (id : String) : s.hasId links.top? id = b.hasId id := by
  cases h with
  | absent => rfl
  | node htop hm hl hr =>
    show (s.node? _).any _ = _
    rw [htop]
    rfl

/-! ## Work on the records of a part -/

/-- Work writes to the records that some links lead to, and makes new ones. The links that are left
use each record no more often than before, and a new one at most once. -/
structure Changes (s s' : Store) (links links' : Links) : Prop where
  size_le : s.size ≤ s'.size
  get? : ∀ q < s.size, links.uses q = 0 → s'.get? q = s.get? q
  uses_le : ∀ q < s.size, links'.uses q ≤ links.uses q
  once : ∀ q, s.size ≤ q → links'.uses q ≤ 1

theorem Changes.refl (h : s.Holds links b) : Changes s s links links where
  size_le := Nat.le_refl _
  get? := fun _ _ _ => rfl
  uses_le := fun _ _ => Nat.le_refl _
  once := fun q hq => by rw [h.uses_eq_zero hq]; omega

theorem Changes.trans (h : Changes s s' links links') (h' : Changes s' s'' links' links'') :
    Changes s s'' links links'' where
  size_le := Nat.le_trans h.size_le h'.size_le
  get? := by
    intro q hq hunused
    have hsize := h.size_le
    have huses := h.uses_le q hq
    rw [h'.get? q (by omega) (by omega), h.get? q hq hunused]
  uses_le := by
    intro q hq
    have hsize := h.size_le
    exact Nat.le_trans (h'.uses_le q (by omega)) (h.uses_le q hq)
  once := by
    intro q hq
    by_cases hnew : q < s'.size
    · exact Nat.le_trans (h'.uses_le q hnew) (h.once q hq)
    · exact h'.once q (by omega)

theorem Changes.links_once (h : Changes s s' links links') (honce : links.Once) : links'.Once := by
  intro q
  by_cases hq : q < s.size
  · exact Nat.le_trans (h.uses_le q hq) (honce q)
  · exact h.once q (by omega)

/-- What other links lead to is left alone. -/
theorem Changes.holds_other (h : Changes s s' links links') (hr : s.Holds r right)
    (hdisjoint : ∀ q, links.uses q = 0 ∨ r.uses q = 0) : s'.Holds r right :=
  hr.congr fun q hq => h.get? q (hr.lt_size hq) ((hdisjoint q).resolve_right hq)

/-- The record of a node outlasts work on what is below it. -/
theorem Holds.change_below (h : s.Holds (.node top m l r) (.node e left right))
    (honce : (Links.node top m l r).Once) (hc : Changes s s' links links') (hl : s'.Holds l' b)
    (hr : s'.Holds r' b') (hltop : l'.top? = l.top?) (hrtop : r'.top? = r.top?)
    (huses : ∀ q, links.uses q ≤ l.uses q + r.uses q ∧
      l'.uses q + r'.uses q + links.uses q = l.uses q + r.uses q + links'.uses q) :
    s'.Holds (.node top m l' r') (.node e b b') ∧
      Changes s s' (.node top m l r) (.node top m l' r') := by
  have hwhole := h
  obtain ⟨hne, htopuses, hmuses⟩ := honce.node
  have htoplt : top < s.size := hwhole.lt_size fun hz => (Links.uses_node_eq_zero.mp hz).1 rfl
  have hmlt : m < s.size := hwhole.lt_size fun hz => (Links.uses_node_eq_zero.mp hz).2.1 rfl
  have htopbelow := (huses top).1
  have hmbelow := (huses m).1
  cases h with
  | node htop hm _ _ =>
    refine ⟨.node ?_ ?_ hl hr, hc.size_le, ?_, ?_, ?_⟩
    · rw [hltop, hrtop, ← htop]
      exact find?_congr (hc.get? top htoplt (by omega))
    · exact (find?_congr (hc.get? m hmlt (by omega))).trans hm
    · intro q hq hunused
      obtain ⟨-, -, hlq, hrq⟩ := Links.uses_node_eq_zero.mp hunused
      have := (huses q).1
      exact hc.get? q hq (by omega)
    · intro q hq
      have := hc.uses_le q hq
      have := (huses q).2
      rw [Links.uses_node, Links.uses_node]
      omega
    · intro q hq
      obtain ⟨htopq, hmq, hlq, hrq⟩ := Links.uses_node_eq_zero.mp (hwhole.uses_eq_zero hq)
      have := hc.once q hq
      have := huses q
      rw [Links.uses_node, if_neg htopq, if_neg hmq]
      omega

/-- The record of a node, and those below one of its sides, outlast work on the other side. -/
theorem Holds.change_left (h : s.Holds (.node top m l r) (.node e left right))
    (honce : (Links.node top m l r).Once) (hc : Changes s s' l l') (hl : s'.Holds l' b')
    (htop' : l'.top? = l.top?) :
    s'.Holds (.node top m l' r) (.node e b' right) ∧
      Changes s s' (.node top m l r) (.node top m l' r) := by
  have hwhole := h
  cases h with
  | node htop hm _ hr =>
    exact hwhole.change_below honce hc hl (hc.holds_other hr honce.disjoint) htop' rfl
      fun q => by omega

theorem Holds.change_right (h : s.Holds (.node top m l r) (.node e left right))
    (honce : (Links.node top m l r).Once) (hc : Changes s s' r r') (hr : s'.Holds r' b')
    (htop' : r'.top? = r.top?) :
    s'.Holds (.node top m l r') (.node e left b') ∧
      Changes s s' (.node top m l r) (.node top m l r') := by
  have hwhole := h
  cases h with
  | node htop hm hl _ =>
    have hl' := hc.holds_other hl fun q => (honce.disjoint q).symm
    exact hwhole.change_below honce hc hl' hr rfl htop' fun q => by omega

/-- Writing to the record of a node. It may lead to other nodes than before, if they were below it
and still are used once. -/
theorem Holds.write_top (h : s.Holds (.node top m l r) (.node e left right))
    (honce : (Links.node top m l r).Once) (e' : Entry) (he : e'.measures = e.measures)
    {left' right' : Branch} (hl' : s.Holds l' left') (hr' : s.Holds r' right')
    (huses : ∀ q, l'.uses q + r'.uses q ≤ l.uses q + r.uses q) :
    (s.set top (.node (e'.record l'.top? r'.top? m))).Holds (.node top m l' r')
        (.node e' left' right') ∧
      Changes s (s.set top (.node (e'.record l'.top? r'.top? m))) (.node top m l r)
        (.node top m l' r') := by
  have hwhole := h
  obtain ⟨hne, ⟨hltop, hrtop⟩, hlm, hrm⟩ := honce.node
  have htoplt : top < s.size := hwhole.lt_size fun hz => (Links.uses_node_eq_zero.mp hz).1 rfl
  have hunused := huses top
  cases h with
  | node htop hm hl hr =>
    refine ⟨.node ?_ ?_ ?_ ?_, ?_, ?_, ?_, ?_⟩
    · exact find?_set_self htoplt
    · rw [he, ← hm]
      exact find?_congr (get?_set_ne hne)
    · refine hl'.congr fun q hq => get?_set_ne ?_
      rintro rfl
      omega
    · refine hr'.congr fun q hq => get?_set_ne ?_
      rintro rfl
      omega
    · exact Nat.le_of_eq size_set.symm
    · intro q hq hzero
      exact get?_set_ne (Links.uses_node_eq_zero.mp hzero).1
    · intro q hq
      have := huses q
      rw [Links.uses_node, Links.uses_node]
      omega
    · intro q hq
      obtain ⟨htopq, hmq, hlq, hrq⟩ := Links.uses_node_eq_zero.mp (hwhole.uses_eq_zero hq)
      have := huses q
      rw [Links.uses_node]
      rw [if_neg htopq, if_neg hmq]
      omega

/-- Writing to the record of a node's measures. -/
theorem Holds.write_measures (h : s.Holds (.node top m l r) (.node e left right))
    (honce : (Links.node top m l r).Once) (measures : Measures) :
    (s.set m (.measures measures)).Holds (.node top m l r) (.node { e with measures } left right) ∧
      Changes s (s.set m (.measures measures)) (.node top m l r) (.node top m l r) := by
  have hwhole := h
  obtain ⟨hne, ⟨hltop, hrtop⟩, hlm, hrm⟩ := honce.node
  have hmlt : m < s.size := hwhole.lt_size fun hz => (Links.uses_node_eq_zero.mp hz).2.1 rfl
  cases h with
  | node htop hm hl hr =>
    refine ⟨.node ?_ ?_ ?_ ?_, ?_, ?_, fun q hq => Nat.le_refl _, fun q hq => ?_⟩
    · exact (find?_congr (get?_set_ne hne.symm)).trans htop
    · exact find?_set_self hmlt
    · refine hl.congr fun q hq => get?_set_ne ?_
      rintro rfl
      exact hq hlm
    · refine hr.congr fun q hq => get?_set_ne ?_
      rintro rfl
      exact hq hrm
    · exact Nat.le_of_eq size_set.symm
    · intro q hq hzero
      exact get?_set_ne (Links.uses_node_eq_zero.mp hzero).2.1
    · rw [hwhole.uses_eq_zero hq]
      omega

end Store

end Contraction
