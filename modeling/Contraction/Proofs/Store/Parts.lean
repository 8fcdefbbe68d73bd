import Contraction.Proofs.Store.Branches

/-!
# Edits at one node

An edit finds the same node in the records as in the branch that they hold (`Holds.find_part`). What
it does there to the records it does to the branch, and as every record is used once, the rest of
the tree does not notice (`Part.replace`). What is put over a node and what is taken away from it is
worked out here (`Holds.wrap`, `Holds.dropChild`).
-/

namespace Contraction

namespace Store

variable {s s' : Store} {links part l r : Links} {b n left right : Branch} {e : Entry}
  {top m : Nat} {test : Links → Bool} {p : Branch → Bool}

theorem updateFirst?_eq_none {change : Branch → Branch} (h : b.preorder.find? p = none) :
    b.updateFirst? p change = none := by
  have hany : b.preorder.any p = false := by
    rw [List.find?_eq_none] at h
    exact List.any_eq_false.mpr h
  rw [← Branch.updateFirst?_isSome p change, Option.isSome_eq_false_iff] at hany
  exact Option.isNone_iff_eq_none.mp hany

/-- A node of a tree with what hangs below, the first in pre-order that something holds of. Work on
its records changes the tree at that node. -/
structure Part (p : Branch → Bool) (links : Links) (b : Branch) (part : Links) (n : Branch) :
    Prop where
  present : part.top?.isSome
  once : part.Once
  holds : ∀ {s : Store}, s.Holds links b → s.Holds part n
  replace : ∀ {s s' : Store} {part' : Links} {n' : Branch}, s.Holds links b →
    s'.Holds part' n' → part'.top? = part.top? → Changes s s' part part' →
    ∃ links' b', s'.Holds links' b' ∧ links'.top? = links.top? ∧ Changes s s' links links' ∧
      ∀ change, change n = n' → b.updateFirst? p change = some b'

/-- A condition that holds of links as of what they lead to is met first at the same node. -/
theorem Holds.find_part (h : s.Holds links b) (honce : links.Once)
    (htest : ∀ {part : Links} {n : Branch}, s.Holds part n → test part = p n) :
    (links.preorder.find? test = none ∧ b.preorder.find? p = none) ∨
      ∃ part n, links.preorder.find? test = some part ∧ b.preorder.find? p = some n ∧
        Part p links b part n := by
  induction h with
  | absent => exact Or.inl ⟨rfl, by rw [Branch.preorder_absent]; rfl⟩
  | @node top m l r e left right htop hm hl hr ihl ihr =>
    have hagree := htest (.node htop hm hl hr)
    rw [Links.preorder, Branch.preorder_node]
    by_cases hfound : p (.node e left right)
    · rw [List.find?_cons_of_pos (hagree.trans hfound), List.find?_cons_of_pos hfound]
      refine Or.inr ⟨_, _, rfl, rfl, rfl, honce, id, ?_⟩
      intro s s' part' n' _ hholds htop' hchange
      refine ⟨part', n', hholds, htop', hchange, fun change hn => ?_⟩
      rw [Branch.updateFirst?, if_pos hfound, hn]
    · rw [List.find?_cons_of_neg (by rw [hagree]; exact hfound), List.find?_cons_of_neg hfound,
        List.find?_append, List.find?_append]
      rcases ihl honce.left with ⟨hnonel, hnonel'⟩ | ⟨part, n, hpart, hn, hin⟩
      · rw [hnonel, hnonel', Option.none_or, Option.none_or]
        rcases ihr honce.right with hnone | ⟨part, n, hpart, hn, hin⟩
        · exact Or.inl hnone
        refine Or.inr ⟨part, n, hpart, hn, hin.present, hin.once, fun hnode => ?_, ?_⟩
        · cases hnode with
          | node _ _ _ hr => exact hin.holds hr
        intro s s' part' n' hnode hholds htop' hchange
        have hwhole := hnode
        cases hnode with
        | node _ _ _ hr =>
          obtain ⟨r', b', hr', hrtop, hrchange, hupdate⟩ := hin.replace hr hholds htop' hchange
          obtain ⟨hwhole', hwholechange⟩ := hwhole.change_right honce hrchange hr' hrtop
          refine ⟨_, _, hwhole', rfl, hwholechange, fun change hc => ?_⟩
          rw [Branch.updateFirst?, if_neg hfound, updateFirst?_eq_none hnonel', hupdate change hc]
          rfl
      · rw [hpart, hn, Option.some_or, Option.some_or]
        refine Or.inr ⟨part, n, rfl, rfl, hin.present, hin.once, fun hnode => ?_, ?_⟩
        · cases hnode with
          | node _ _ hl _ => exact hin.holds hl
        intro s s' part' n' hnode hholds htop' hchange
        have hwhole := hnode
        cases hnode with
        | node _ _ hl _ =>
          obtain ⟨l', b', hl', hltop, hlchange, hupdate⟩ := hin.replace hl hholds htop' hchange
          obtain ⟨hwhole', hwholechange⟩ := hwhole.change_left honce hlchange hl' hltop
          refine ⟨_, _, hwhole', rfl, hwholechange, fun change hc => ?_⟩
          rw [Branch.updateFirst?, if_neg hfound, hupdate change hc]

/-! ## A permutation -/

/-- What a node holds goes into a new node, and the node is left with that one alone. -/
theorem Holds.wrap (h : s.Holds (.node top m l r) (.node e left right))
    (honce : (Links.node top m l r).Once) (newId : String) {carried : Entry}
    (hcarried : carried = Entry.mark { id := newId, labels := e.labels, sizes := e.sizes }) :
    ∃ s₁ inner wrapped, Stored.make carried l.top? r.top? s = some (inner, s₁) ∧
      (s₁.set top (.node (e.mark.record (some inner) none m))).Holds wrapped
        ((Branch.node e left right).wrap newId) ∧ wrapped.top? = some top ∧
      Changes s (s₁.set top (.node (e.mark.record (some inner) none m))) (.node top m l r)
        wrapped := by
  have hwhole := h
  obtain ⟨hne, ⟨hltop, hrtop⟩, hlm, hrm⟩ := honce.node
  have htoplt : top < s.size := hwhole.lt_size fun hz => (Links.uses_node_eq_zero.mp hz).1 rfl
  have hmlt : m < s.size := hwhole.lt_size fun hz => (Links.uses_node_eq_zero.mp hz).2.1 rfl
  cases h with
  | node htop hm hl hr =>
    obtain ⟨s₁, hmake, hkept, hinner⟩ := make_of_holds carried hl hr
    have hsize := hkept.size_le
    have hinnertop : (Links.node (s.size + 1) s.size l r).uses top = 0 :=
      Links.uses_node_eq_zero.mpr ⟨by omega, by omega, hltop, hrtop⟩
    refine ⟨s₁, s.size + 1, .node top m (.node (s.size + 1) s.size l r) .absent, hmake,
      .node ?_ ?_ ?_ .absent, rfl, ?_, ?_, ?_, ?_⟩
    · exact find?_set_self (by omega)
    · exact (find?_congr ((get?_set_ne hne).trans (hkept.get? m hmlt))).trans hm
    · rw [← hcarried]
      refine hinner.congr fun q hq => get?_set_ne ?_
      rintro rfl
      exact hq hinnertop
    · rw [size_set]
      exact hsize
    · intro q hq hzero
      exact (get?_set_ne (Links.uses_node_eq_zero.mp hzero).1).trans (hkept.get? q hq)
    · intro q hq
      rw [Links.uses_node, Links.uses_node, Links.uses_node, if_neg (by omega : s.size + 1 ≠ q),
        if_neg (by omega : s.size ≠ q)]
      show _ + 0 ≤ _
      omega
    · intro q hq
      obtain ⟨htopq, hmq, hlq, hrq⟩ := Links.uses_node_eq_zero.mp (hwhole.uses_eq_zero hq)
      rw [Links.uses_node, Links.uses_node, if_neg htopq, if_neg hmq, hlq, hrq]
      show _ + 0 ≤ _
      split <;> split <;> omega

/-! ## A child taken away -/

/-- What taking a child away from a node leads to: nothing has been written, or the node has been
changed as `Branch.dropChild?` says. -/
def Drops (work : Stored Bool) (s : Store) (links : Links) (changed : Option Branch) : Prop :=
  (work s = some (false, s) ∧ changed = none) ∨
    ∃ s' links' n', work s = some (true, s') ∧ changed = some n' ∧ s'.Holds links' n' ∧
      links'.top? = links.top? ∧ Changes s s' links links'

/-- `Branch.dropChild?` once it is known on which side the child is. -/
def dropSide? (onLeft : Bool) (e : Entry) (left right : Branch) : Option Branch :=
  let target := if onLeft then left else right
  let sibling := if onLeft then right else left
  if !target.isDeletable then none
  else if target.isContraction then
    if sibling.isAbsent then some (.node e.unmark target.left target.right) else none
  else if target.left.isAbsent then
    if sibling.isAbsent then some (.node e.unmark .absent .absent) else none
  else
    let adopted := target.left.unmarkDeletable
    some (if onLeft then .node e adopted right else .node e left adopted)

/-- A node that may not be removed any more. -/
theorem Holds.unmark (h : s.Holds (.node top m l r) (.node e left right))
    (honce : (Links.node top m l r).Once) :
    (s.set top (.node (e.unmark.record l.top? r.top? m))).Holds (.node top m l r)
        (Branch.node e left right).unmarkDeletable ∧
      Changes s (s.set top (.node (e.unmark.record l.top? r.top? m))) (.node top m l r)
        (.node top m l r) := by
  have hwhole := h
  cases h with
  | node htop hm hl hr =>
    exact hwhole.write_top honce e.unmark rfl hl hr fun q => Nat.le_refl _

variable {onLeft : Bool} {t mt : Nat} {a c : Links} {te : Entry} {x y : Branch}

/-- What hangs on one side of a node. -/
theorem Holds.side (h : s.Holds (.node top m l r) (.node e left right)) (onLeft : Bool) :
    s.Holds (if onLeft then l else r) (if onLeft then left else right) := by
  cases h with
  | node htop hm hl hr =>
    cases onLeft with
    | true => exact hl
    | false => exact hr

/-- The other side of a node is empty in the records as in the branch. -/
theorem Holds.otherSide_isNone (h : s.Holds (.node top m l r) (.node e left right))
    (onLeft : Bool) : ((e.record l.top? r.top? m).side !onLeft).isNone =
      (if onLeft then right else left).isAbsent := by
  cases h with
  | node htop hm hl hr =>
    cases onLeft with
    | true => exact hr.top?_isNone
    | false => exact hl.top?_isNone

/-- What is used below a child is used below the node. -/
theorem Links.uses_below_le (hlinks : (if onLeft then l else r) = .node t mt a c) (q : Nat) :
    a.uses q + c.uses q ≤ l.uses q + r.uses q := by
  have huses : (Links.node t mt a c).uses q = _ := Links.uses_node
  rw [← hlinks] at huses
  cases onLeft with
  | true =>
    rw [if_pos rfl] at huses
    omega
  | false =>
    rw [if_neg Bool.false_ne_true] at huses
    omega

/-- The child of a node that is taken away takes its place. -/
theorem Holds.adopt (h : s.Holds (.node top m l r) (.node e left right))
    (honce : (Links.node top m l r).Once) (hlinks : (if onLeft then l else r) = .node t mt a c)
    (hbranch : (if onLeft then left else right) = .node te x y) {f mf : Nat} {u v : Links}
    {fe : Entry} {ul vr : Branch} (ha : a = .node f mf u v) (hx : x = .node fe ul vr) :
    ∃ s₁ s' links', Stored.write f (.node (fe.unmark.record u.top? v.top? mf)) s = some ((), s₁) ∧
      Stored.write top (.node ((e.record l.top? r.top? m).setSide onLeft (some f))) s₁ =
        some ((), s') ∧
      s'.Holds links' (if onLeft then .node e x.unmarkDeletable right
        else .node e left x.unmarkDeletable) ∧
      links'.top? = some top ∧ Changes s s' (.node top m l r) links' := by
  subst ha hx
  cases onLeft with
  | true =>
    obtain rfl : l = _ := hlinks
    obtain rfl : left = _ := hbranch
    have hwhole := h
    cases h with
    | node htop hm hl hr =>
      have htarget := hl
      cases hl with
      | node _ _ hadopted hc =>
        obtain ⟨hunmarked, hchange⟩ := hadopted.unmark honce.left.left
        obtain ⟨htarget₁, hchange₁⟩ := htarget.change_left honce.left hchange hunmarked rfl
        obtain ⟨hwhole₁, hchange₂⟩ := hwhole.change_left honce hchange₁ htarget₁ rfl
        have hr₁ := hchange₁.holds_other hr honce.disjoint
        obtain ⟨hholds, hchange₃⟩ := hwhole₁.write_top honce e rfl hunmarked hr₁ fun q => by
          rw [Links.uses_node (l := .node f mf u v)]
          omega
        exact ⟨_, _, _, rfl, rfl, hholds, rfl, hchange₂.trans hchange₃⟩
  | false =>
    obtain rfl : r = _ := hlinks
    obtain rfl : right = _ := hbranch
    have hwhole := h
    cases h with
    | node htop hm hl hr =>
      have htarget := hr
      cases hr with
      | node _ _ hadopted hc =>
        obtain ⟨hunmarked, hchange⟩ := hadopted.unmark honce.right.left
        obtain ⟨htarget₁, hchange₁⟩ := htarget.change_left honce.right hchange hunmarked rfl
        obtain ⟨hwhole₁, hchange₂⟩ := hwhole.change_right honce hchange₁ htarget₁ rfl
        have hl₁ := hchange₁.holds_other hl fun q => (honce.disjoint q).symm
        obtain ⟨hholds, hchange₃⟩ := hwhole₁.write_top honce e rfl hl₁ hunmarked fun q => by
          rw [Links.uses_node (l := .node f mf u v)]
          omega
        exact ⟨_, _, _, rfl, rfl, hholds, rfl, hchange₂.trans hchange₃⟩

/-- A node has both children in the records as in the branch. -/
theorem Holds.isContraction (h : s.Holds (.node top m l r) (.node e left right)) :
    ((e.record l.top? r.top? m).left.isSome && (e.record l.top? r.top? m).right.isSome) =
      (Branch.node e left right).isContraction := by
  cases h with
  | node htop hm hl hr =>
    rw [Entry.record_left, Entry.record_right, hl.top?_isSome, hr.top?_isSome]
    cases left <;> cases right <;> rfl

/-- A node without a left child is taken away from its parent. -/
theorem Holds.dropLast (h : s.Holds (.node top m l r) (.node e left right))
    (honce : (Links.node top m l r).Once)
    (hsibling : (if onLeft then right else left).isAbsent = true) :
    ∃ s', Stored.write top (.node ((e.record l.top? r.top? m).setSide onLeft none).unmark) s =
        some ((), s') ∧
      s'.Holds (.node top m .absent .absent) (.node e.unmark .absent .absent) ∧
      Changes s s' (.node top m l r) (.node top m .absent .absent) := by
  obtain ⟨hholds, hchange⟩ := h.write_top honce e.unmark rfl .absent .absent
    fun q => Nat.zero_le _
  cases h with
  | node htop hm hl hr =>
    -- the other side is empty too
    have hrecord : ((e.record l.top? r.top? m).setSide onLeft none).unmark =
        e.unmark.record none none m := by
      cases onLeft with
      | true =>
        have hnone : r.top? = none := Option.isNone_iff_eq_none.mp (hr.top?_isNone.trans hsibling)
        rw [hnone]
        rfl
      | false =>
        have hnone : l.top? = none := Option.isNone_iff_eq_none.mp (hl.top?_isNone.trans hsibling)
        rw [hnone]
        rfl
    rw [hrecord]
    exact ⟨_, rfl, hholds, hchange⟩

/-- A node is taken away from its parent in the records as in the branch. -/
theorem Holds.dropTarget (h : s.Holds (.node top m l r) (.node e left right))
    (honce : (Links.node top m l r).Once) (hlinks : (if onLeft then l else r) = .node t mt a c)
    (hbranch : (if onLeft then left else right) = .node te x y) :
    Drops (Stored.dropTarget top (e.record l.top? r.top? m) onLeft
      (te.record a.top? c.top? mt)) s (.node top m l r) (dropSide? onLeft e left right) := by
  have htarget := h.side onLeft
  rw [hlinks, hbranch] at htarget
  have hbinary := htarget.isContraction
  have hmark : (te.record a.top? c.top? mt).isDeletable = (Branch.node te x y).isDeletable := rfl
  unfold Drops Stored.dropTarget dropSide?
  rw [h.otherSide_isNone, hbranch, hbinary, hmark]
  dsimp only
  cases htarget with
  | node _ _ ha hc =>
    by_cases hdel : (Branch.node te x y).isDeletable
    case neg =>
      rw [Bool.not_eq_true] at hdel
      simp only [hdel, Bool.not_false, if_true]
      exact Or.inl ⟨rfl, trivial⟩
    simp only [hdel, Bool.not_true, Bool.false_eq_true, if_false]
    by_cases hcontraction : (Branch.node te x y).isContraction
    · simp only [hcontraction, if_true]
      by_cases hsibling : (if onLeft then right else left).isAbsent
      · simp only [hsibling, if_true]
        obtain ⟨hholds, hchange⟩ := h.write_top honce e.unmark rfl ha hc
          (Links.uses_below_le hlinks)
        exact Or.inr ⟨_, _, _, rfl, rfl, hholds, rfl, hchange⟩
      · rw [Bool.not_eq_true] at hsibling
        simp only [hsibling, Bool.false_eq_true, if_false]
        exact Or.inl ⟨rfl, trivial⟩
    · rw [Bool.not_eq_true] at hcontraction
      simp only [hcontraction, Bool.false_eq_true, if_false]
      cases ha with
      | absent =>
        by_cases hsibling : (if onLeft then right else left).isAbsent
        · obtain ⟨s', hwrite, hholds, hchange⟩ := h.dropLast honce hsibling
          simp only [hsibling, if_true]
          refine Or.inr ⟨s', _, _, ?_, rfl, hholds, rfl, hchange⟩
          show (Stored.write _ _ >>= _) s = _
          rw [Stored.bind_of_eq hwrite]
          rfl
        · rw [Bool.not_eq_true] at hsibling
          simp only [hsibling, Bool.false_eq_true, if_false]
          exact Or.inl ⟨rfl, rfl⟩
      | node hf hmf hu hv =>
        obtain ⟨s₁, s', links', hwrite, hwrite', hholds, htop', hchange⟩ :=
          h.adopt honce hlinks hbranch rfl rfl
        refine Or.inr ⟨s', links', _, ?_, rfl, hholds, htop', hchange⟩
        show (Stored.node _ >>= _) s = _
        rw [Stored.bind_of_eq (Stored.node_of_eq hf), Entry.record_unmark,
          Stored.bind_of_eq hwrite, Stored.bind_of_eq hwrite']
        rfl

/-- A child is taken away from its parent in the records as in the branch. -/
theorem Holds.dropChild (h : s.Holds (.node top m l r) (.node e left right))
    (honce : (Links.node top m l r).Once) (id : String) :
    Drops (Stored.dropChild top id) s (.node top m l r)
      ((Branch.node e left right).dropChild? id) := by
  have hwhole := h
  cases h with
  | node htop hm hl hr =>
    have honLeft : s.hasId (e.record l.top? r.top? m).left id = left.hasId id := hl.hasId id
    have hdrop : (Branch.node e left right).dropChild? id =
        dropSide? (left.hasId id) e left right := rfl
    have hside := hwhole.side (left.hasId id)
    generalize hlinks : (if left.hasId id then l else r) = target at hside
    generalize hbranch : (if left.hasId id then left else right) = n at hside
    rw [hdrop]
    unfold Drops Stored.dropChild
    rw [Stored.bind_of_eq (Stored.node_of_eq htop), Stored.look_bind, honLeft, Entry.record_side,
      ← apply_ite Links.top?, hlinks]
    cases hside with
    | absent =>
      refine Or.inl ⟨rfl, ?_⟩
      unfold dropSide?
      rw [hbranch]
      rfl
    | node ht hmt ha hc =>
      have hdrops := hwhole.dropTarget honce hlinks hbranch
      unfold Drops at hdrops
      show ((Stored.node _ >>= _) s = _ ∧ _) ∨ ∃ s' links' n', (Stored.node _ >>= _) s = _ ∧ _
      rw [Stored.bind_of_eq (Stored.node_of_eq ht)]
      exact hdrops

end Store

end Contraction
