import Contraction.Proofs.Measurement.Sizing
import Contraction.Proofs.Store.Parts

/-!
# What is done to a tree

`Store.Held base s t p` says that the records of a tree hold a plan, that they all lie from a place
on, and that none of them is used twice. Whatever is done to the tree, its records then hold what is
done to the plan, and no record in front of that place is written to (`Kept`). A copy lies behind
all records that were there before it was made, so what is done to the copy writes to none of them.
-/

namespace Contraction

namespace Store

variable {base t i : Nat} {s s' : Store} {p q : Plan} {links links' : Links} {b' : Branch}

/-- A tree holds a plan, by the links of its nodes and the place of its source of ids. -/
structure HoldsPlan (base : Nat) (s : Store) (t : Nat) (p : Plan) (i : Nat) (links : Links) :
    Prop where
  tree : s.find? Record.tree? t = some ⟨i, p.sizes, links.top?⟩
  ids : s.find? Record.ids? i = some p.ids
  root : s.Holds links p.root
  once : links.Once
  tree_le : base ≤ t
  ids_le : base ≤ i
  links_le : ∀ q, links.uses q ≠ 0 → base ≤ q

/-- A tree holds a plan in records of its own, which lie from a place on. -/
def Held (base : Nat) (s : Store) (t : Nat) (p : Plan) : Prop :=
  ∃ i links, HoldsPlan base s t p i links

namespace HoldsPlan

theorem lt_size (h : HoldsPlan base s t p i links) : t < s.size ∧ i < s.size := by
  obtain ⟨x, hx, -⟩ := find?_eq_some h.tree
  obtain ⟨y, hy, -⟩ := find?_eq_some h.ids
  exact ⟨lt_size_of_get? hx, lt_size_of_get? hy⟩

theorem base_le (h : HoldsPlan base s t p i links) : base ≤ s.size := by
  have := h.tree_le
  have := h.lt_size
  omega

/-- The record of the tree and that of the ids are neither one record nor those of a node. -/
theorem apart (h : HoldsPlan base s t p i links) :
    t ≠ i ∧ links.uses t = 0 ∧ links.uses i = 0 := by
  obtain ⟨x, hx, htree⟩ := find?_eq_some h.tree
  obtain ⟨y, hy, hids⟩ := find?_eq_some h.ids
  refine ⟨?_, ?_, ?_⟩
  · rintro rfl
    obtain rfl : x = y := Option.some.inj (hx.symm.trans hy)
    cases x with
    | tree => cases hids
    | node | measures | ids => cases htree
  · by_cases hzero : links.uses t = 0
    · exact hzero
    obtain ⟨z, hz, hkind⟩ := h.root.get? hzero
    obtain rfl : x = z := Option.some.inj (hx.symm.trans hz)
    cases x with
    | tree => rcases hkind with hkind | hkind <;> cases hkind
    | node | measures | ids => cases htree
  · by_cases hzero : links.uses i = 0
    · exact hzero
    obtain ⟨z, hz, hkind⟩ := h.root.get? hzero
    obtain rfl : y = z := Option.some.inj (hy.symm.trans hz)
    cases y with
    | ids => rcases hkind with hkind | hkind <;> cases hkind
    | node | measures | tree => cases hids

/-! ## Reading -/

theorem linksOf (h : HoldsPlan base s t p i links) : Stored.linksOf t s = some (links, s) := by
  unfold Stored.linksOf
  rw [Stored.bind_of_eq (Stored.tree_of_eq h.tree)]
  exact Stored.look_of_eq _ (h.root.linksFrom h.once)

theorem planAt (h : HoldsPlan base s t p i links) : s.planAt t = some p := by
  unfold Store.planAt
  rw [h.tree]
  show (s.find? Record.ids? i).bind _ = _
  rw [h.ids]
  show (s.linksFrom links.top?).bind _ = _
  rw [h.root.linksFrom h.once]
  show (s.branchAt links).bind _ = _
  rw [h.root.branchAt]
  rfl

theorem firstNode (h : HoldsPlan base s t p i links) (test : Store → Links → Bool) :
    Stored.firstNode t test s = some ((links.preorder.find? (test s)).bind Links.top?, s) := by
  unfold Stored.firstNode
  rw [Stored.bind_of_eq h.linksOf]
  rfl

/-! ## Writing -/

/-- What is done to the nodes of a tree leaves the tree with the nodes that come out of it. -/
theorem change (h : HoldsPlan base s t p i links) (hroot : s'.Holds links' b')
    (htop : links'.top? = links.top?) (hchange : Changes s s' links links') :
    HoldsPlan base s' t { p with root := b' } i links' ∧ Kept base s s' := by
  obtain ⟨hti, htree, hids⟩ := h.apart
  obtain ⟨htlt, hilt⟩ := h.lt_size
  have hbase := h.base_le
  refine ⟨⟨?_, ?_, hroot, hchange.links_once h.once, h.tree_le, h.ids_le, ?_⟩,
    hchange.size_le, ?_⟩
  · rw [htop]
    exact (find?_congr (hchange.get? t htlt htree)).trans h.tree
  · exact (find?_congr (hchange.get? i hilt hids)).trans h.ids
  · intro q hq
    by_cases hold : q < s.size
    · have huses := hchange.uses_le q hold
      exact h.links_le q (by omega)
    · omega
  · intro q hq
    refine hchange.get? q (by omega) ?_
    by_cases hzero : links.uses q = 0
    · exact hzero
    · have := h.links_le q hzero
      omega

/-- Writing to the record of a tree, which may get another table and other nodes. -/
theorem write_tree (h : HoldsPlan base s t p i links) (sizes : Table Int)
    (hroot : s.Holds links' b') (honce : links'.Once) (hle : ∀ q, links'.uses q ≠ 0 → base ≤ q) :
    HoldsPlan base (s.set t (.tree ⟨i, sizes, links'.top?⟩)) t { p with root := b', sizes } i
        links' ∧
      Kept base s (s.set t (.tree ⟨i, sizes, links'.top?⟩)) := by
  obtain ⟨hti, -, -⟩ := h.apart
  obtain ⟨htlt, -⟩ := h.lt_size
  have hletree := h.tree_le
  obtain ⟨x, hx, htree⟩ := find?_eq_some h.tree
  refine ⟨⟨find?_set_self htlt, ?_, hroot.congr fun q hq => get?_set_ne ?_, honce, h.tree_le,
    h.ids_le, hle⟩, Nat.le_of_eq size_set.symm, fun q hq => get?_set_ne (by omega)⟩
  · exact (find?_congr (get?_set_ne hti)).trans h.ids
  · rintro rfl
    -- the links lead to no tree
    obtain ⟨z, hz, hkind⟩ := hroot.get? hq
    obtain rfl : x = z := Option.some.inj (hx.symm.trans hz)
    cases x with
    | tree => rcases hkind with hkind | hkind <;> cases hkind
    | node | measures | ids => cases htree

/-- Writing to the source of ids of a tree. -/
theorem write_ids (h : HoldsPlan base s t p i links) (ids : NodeIds) :
    HoldsPlan base (s.set i (.ids ids)) t { p with ids } i links ∧
      Kept base s (s.set i (.ids ids)) := by
  obtain ⟨hti, -, hzero⟩ := h.apart
  obtain ⟨-, hilt⟩ := h.lt_size
  have hleids := h.ids_le
  refine ⟨⟨?_, find?_set_self hilt, h.root.congr fun q hq => get?_set_ne ?_, h.once, h.tree_le,
    h.ids_le, h.links_le⟩, Nat.le_of_eq size_set.symm, fun q hq => get?_set_ne (by omega)⟩
  · exact (find?_congr (get?_set_ne hti.symm)).trans h.tree
  · rintro rfl
    exact hq hzero

/-- A tree outlasts what leaves all records alone that are there. -/
theorem kept (h : HoldsPlan base s t p i links) (hkept : Kept s.size s s') :
    HoldsPlan base s' t p i links where
  tree := (find?_congr (hkept.get? t h.lt_size.1)).trans h.tree
  ids := (find?_congr (hkept.get? i h.lt_size.2)).trans h.ids
  root := h.root.kept hkept
  once := h.once
  tree_le := h.tree_le
  ids_le := h.ids_le
  links_le := h.links_le

end HoldsPlan

theorem Held.kept (h : Held base s t p) (hkept : Kept s.size s s') : Held base s' t p := by
  obtain ⟨i, links, h⟩ := h
  exact ⟨i, links, h.kept hkept⟩

/-! ## Making trees -/

/-- A tree of nodes that have been made, with a source of ids that has been made before them. -/
theorem exists_held {work : Stored (Option Ref)} {b : Branch} (s : Store) (ids : NodeIds)
    (sizes : Table Int) (hmakes : Makes work (s.push (.ids ids)) b) :
    ∃ t s', (do let root ← work; Stored.alloc (.tree { ids := s.size, sizes, root }) : Stored Ref)
        (s.push (.ids ids)) = some (t, s') ∧
      Kept s.size s s' ∧ Held s.size s' t { root := b, sizes, ids } := by
  obtain ⟨s₂, links, hwork, hfresh⟩ := hmakes
  have hkept₁ := kept_push s (.ids ids)
  have hkept₂ := hfresh.kept
  have hkept₃ := kept_push s₂ (.tree { ids := s.size, sizes, root := links.top? })
  have hsize₁ : (s.push (.ids ids)).size = s.size + 1 := size_push
  have hsize₂ := hkept₂.size_le
  refine ⟨s₂.size, s₂.push (.tree { ids := s.size, sizes, root := links.top? }), ?_, ?_, s.size,
    links, ?_, ?_, hfresh.holds.kept hkept₃, hfresh.once, ?_, Nat.le_refl _, ?_⟩
  · rw [Stored.bind_of_eq hwork]
    rfl
  · exact hkept₁.trans ((hkept₂.mono (by omega)).trans (hkept₃.mono (by omega)))
  · unfold find?
    rw [get?_push, if_pos rfl]
    rfl
  · unfold find?
    rw [hkept₃.get? s.size (by omega), hkept₂.get? s.size (by omega), get?_push, if_pos rfl]
    rfl
  · omega
  · intro q hq
    have := hfresh.new q hq
    omega

/-- A plan gets a tree of its own. -/
theorem place_held (s : Store) (p : Plan) :
    ∃ t s', Stored.place p s = some (t, s') ∧ Kept s.size s s' ∧ Held s.size s' t p :=
  exists_held s p.ids p.sizes (makes_build _ p.root)

/-- A copy of a tree is made of new records alone. -/
theorem Held.clone (h : Held base s t p) :
    ∃ t' s', Stored.clone t s = some (t', s') ∧ Kept s.size s s' ∧
      Held s.size s' t' p.withoutMeasures := by
  obtain ⟨i, links, h⟩ := h
  have hpushed := h.kept (kept_push s (.ids p.ids))
  obtain ⟨t', s', hwork, hkept, hheld⟩ := exists_held s p.ids p.sizes (makes_copy hpushed.root)
  refine ⟨t', s', ?_, hkept, hheld⟩
  unfold Stored.clone
  rw [Stored.bind_of_eq (Stored.tree_of_eq h.tree), Stored.bind_of_eq (Stored.ids_of_eq h.ids),
    Stored.alloc_bind, Stored.bind_of_eq hpushed.linksOf]
  exact hwork

/-! ## Sizes and measures -/

/-- Every node of a tree gets sizes by its table. -/
theorem HoldsPlan.spreadSizes (h : HoldsPlan base s t p i links) :
    ∃ s', Stored.spreadSizes t s = some ((), s') ∧ Kept base s s' ∧
      HoldsPlan base s' t p.spreadSizes i links := by
  obtain ⟨s', hwork, hchange, hroot⟩ := spread_of_holds p h.root h.once
  obtain ⟨hplan, hkept⟩ := h.change hroot rfl hchange
  refine ⟨s', ?_, hkept, hplan⟩
  unfold Stored.spreadSizes
  rw [Stored.bind_of_eq (Stored.tree_of_eq h.tree), Stored.bind_of_eq h.linksOf]
  exact hwork

/-- Sizes are entered, or nothing is written. -/
theorem Held.setSizes (h : Held base s t p) (given : Table Datum) :
    ∃ s', Stored.setSizes t given s = some ((p.setSizes given).map fun _ => (), s') ∧
      Kept base s s' ∧ (∀ fault, p.setSizes given = .error fault → s' = s) ∧
      ∀ q, p.setSizes given = .ok q → Held base s' t q := by
  obtain ⟨i, links, h⟩ := h
  unfold Stored.setSizes
  rw [Plan.setSizes_eq]
  cases Plan.checkedSizes given with
  | error fault => exact ⟨s, rfl, .refl .., fun _ _ => rfl, fun q hq => by cases hq⟩
  | ok checked =>
    obtain ⟨hplan, hkept⟩ := h.write_tree (p.sizes.insertAll checked) h.root h.once h.links_le
    obtain ⟨s', hwork, hkept', hplan'⟩ := hplan.spreadSizes
    refine ⟨s', ?_, hkept.trans hkept', ?_, ?_⟩
    · show (Stored.tree t >>= _) s = _
      rw [Stored.bind_of_eq (Stored.tree_of_eq h.tree), Stored.write_bind,
        Stored.bind_of_eq hwork]
      rfl
    · rintro fault ⟨⟩
    · rintro q ⟨⟩
      exact ⟨i, links, hplan'⟩

theorem Held.setCompleteSizes (h : Held base s t p) (given : Table Datum) (default : Datum) :
    ∃ s', Stored.setCompleteSizes t given default s =
        some ((p.setCompleteSizes given default).map fun _ => (), s') ∧
      Kept base s s' ∧ ∀ q, p.setCompleteSizes given default = .ok q → Held base s' t q := by
  have hheld := h
  obtain ⟨i, links, h⟩ := h
  unfold Stored.setCompleteSizes Plan.setCompleteSizes
  rw [Stored.bind_of_eq (Stored.look_of_eq _ h.planAt)]
  cases p.completeSizes given default with
  | error fault => exact ⟨s, rfl, .refl .., fun q hq => by cases hq⟩
  | ok sizes => exact (hheld.setSizes _).imp fun s' h => ⟨h.1, h.2.1, h.2.2.2⟩

/-- Measures are written, as far as the measurement has come. -/
theorem Held.measure (h : Held base s t p) (config : Config) :
    ∃ s', Stored.measure t config s = some (p.root.measureUnder p.sizeData config, s') ∧
      Kept base s s' ∧
      Held base s' t { p with root := (p.root.measureUnder p.sizeData config).branch } := by
  obtain ⟨i, links, h⟩ := h
  obtain ⟨s', hwork, hchange, hroot⟩ := writeMeasures_of_holds h.root h.once
    (Branch.measureUnder_keeps p.sizeData config p.root)
  obtain ⟨hplan, hkept⟩ := h.change hroot rfl hchange
  refine ⟨s', ?_, hkept, i, links, hplan⟩
  unfold Stored.measure
  rw [Stored.bind_of_eq (Stored.look_of_eq _ h.planAt), Stored.bind_of_eq h.linksOf,
    Stored.bind_of_eq hwork]
  rfl

/-! ## Edits -/

/-- The first node that something holds of is the same in the records as in the plan. -/
theorem HoldsPlan.firstNode_cases (h : HoldsPlan base s t p i links)
    (test : Store → Links → Bool) (holds : Branch → Bool)
    (htest : ∀ {part : Links} {n : Branch}, s.Holds part n → test s part = holds n) :
    (Stored.firstNode t test s = some (none, s) ∧ p.root.preorder.find? holds = none) ∨
      ∃ top m l r e left right, Stored.firstNode t test s = some (some top, s) ∧
        p.root.preorder.find? holds = some (.node e left right) ∧
        Part holds links p.root (.node top m l r) (.node e left right) := by
  rw [h.firstNode test]
  rcases h.root.find_part h.once htest with ⟨hnone, hnone'⟩ | ⟨part, n, hpart, hn, hin⟩
  · rw [hnone]
    exact Or.inl ⟨rfl, hnone'⟩
  · rw [hpart]
    refine Or.inr ?_
    have hholds := hin.holds h.root
    cases hholds with
    | absent => cases hin.present
    | node => exact ⟨_, _, _, _, _, _, _, rfl, hn, hin⟩

/-- Work at a part of a tree leaves a tree in which the part has been replaced. -/
theorem HoldsPlan.replace (h : HoldsPlan base s t p i links) {test : Branch → Bool} {part : Links}
    {n : Branch} (hin : Part test links p.root part n) {part' : Links} {n' : Branch}
    (hholds : s'.Holds part' n') (htop : part'.top? = part.top?)
    (hchange : Changes s s' part part') :
    ∃ b', (∀ change, change n = n' → p.root.updateFirst? test change = some b') ∧
      Kept base s s' ∧ Held base s' t { p with root := b' } := by
  obtain ⟨links', b', hroot, hlinkstop, hlinkschange, hupdate⟩ :=
    hin.replace h.root hholds htop hchange
  obtain ⟨hplan, hkept⟩ := h.change hroot hlinkstop hlinkschange
  exact ⟨b', hupdate, hkept, i, links', hplan⟩

theorem Held.swapAt (h : Held base s t p) (id : String) :
    ∃ s', Stored.swapAt t id s = some ((p.swapAt id).isSome, s') ∧ Kept base s s' ∧
      ∀ q, p.swapAt id = some q → Held base s' t q := by
  obtain ⟨i, links, h⟩ := h
  unfold Stored.swapAt Plan.swapAt Branch.swapAt Branch.find?
  rcases h.firstNode_cases (isNode id) (·.hasId id) fun hpart => hpart.hasId id with
    ⟨hfirst, hnone⟩ | ⟨top, m, l, r, e, left, right, hfirst, hfound, hin⟩
  · rw [Stored.bind_of_eq hfirst, hnone]
    exact ⟨s, rfl, .refl .., fun q hq => by cases hq⟩
  rw [Stored.bind_of_eq hfirst, hfound]
  dsimp only
  have hwhole := hin.holds h.root
  cases hin.holds h.root with
  | node htop hm hl hr =>
    have hright : (Branch.node e left right).right = right := rfl
    rw [Stored.bind_of_eq (Stored.node_of_eq htop), Entry.record_right, hr.top?_isNone, hright]
    by_cases habsent : right.isAbsent
    · rw [if_pos habsent, if_pos habsent]
      exact ⟨s, rfl, .refl .., fun q hq => by cases hq⟩
    · rw [if_neg habsent, if_neg habsent]
      obtain ⟨hswapped, hchange⟩ := hwhole.write_top hin.once e rfl hr hl
        fun q => by omega
      obtain ⟨b', hupdate, hkept, hheld⟩ := h.replace hin hswapped rfl hchange
      rw [hupdate _ rfl]
      refine ⟨_, rfl, hkept, ?_⟩
      rintro q ⟨⟩
      exact hheld

theorem Held.wrapAt (h : Held base s t p) (id : String) :
    ∃ s', Stored.wrapAt t id s = some ((p.wrapAt id).map Option.isSome, s') ∧ Kept base s s' ∧
      ∀ q, p.wrapAt id = .ok (some q) → Held base s' t q := by
  obtain ⟨i, links, h⟩ := h
  unfold Stored.wrapAt Plan.wrapAt
  rcases h.firstNode_cases (isNode id) (·.hasId id) fun hpart => hpart.hasId id with
    ⟨hfirst, hnone⟩ | ⟨top, m, l, r, e, left, right, hfirst, hfound, hin⟩
  · have hwrap : p.root.wrapAt id p.ids.issue.1 = none := updateFirst?_eq_none hnone
    rw [Stored.bind_of_eq hfirst]
    dsimp only
    rw [hwrap]
    exact ⟨s, rfl, .refl .., fun q hq => by cases hq⟩
  rw [Stored.bind_of_eq hfirst]
  dsimp only
  cases hin.holds h.root with
  | node htop hm hl hr =>
    obtain ⟨newId, after, hissue⟩ : ∃ newId after, p.ids.issue = (newId, after) := ⟨_, _, rfl⟩
    -- the id is issued first, then the new node is made, then the node is written
    obtain ⟨hissued, hkeptids⟩ := h.write_ids after
    obtain ⟨s₁, inner, wrapped, hmake, hwrapped, hwrappedtop, hchange⟩ :=
      (hin.holds hissued.root).wrap hin.once newId rfl
    obtain ⟨b', hupdate, hkept, hheld⟩ := hissued.replace hin hwrapped hwrappedtop hchange
    have hroot : p.root.wrapAt id newId = some b' := hupdate _ rfl
    rw [Stored.bind_of_eq (Stored.node_of_eq htop), Stored.bind_of_eq (Stored.tree_of_eq h.tree),
      Stored.bind_of_eq (Stored.ids_of_eq h.ids), hissue]
    dsimp only
    rw [Stored.write_bind, hroot]
    dsimp only
    by_cases hwritable : after.areWritable
    · rw [if_pos hwritable, if_pos hwritable]
      have hmake' : Stored.make (Entry.mark { (e.record l.top? r.top? m).entry .unset with
          id := newId }) l.top? r.top? (s.set i (.ids after)) = some (inner, s₁) := hmake
      rw [Entry.record_left, Entry.record_right, Stored.bind_of_eq hmake']
      refine ⟨_, rfl, hkeptids.trans hkept, ?_⟩
      rintro q ⟨⟩
      exact hheld
    · rw [if_neg hwritable, if_neg hwritable]
      exact ⟨_, rfl, hkeptids, fun q hq => by cases hq⟩

/-! ### Removals -/

variable {id : String}

theorem isPermutation_node (e : Entry) (left right : Branch) :
    (Branch.node e left right).isPermutation = (!left.isAbsent && right.isAbsent) := by
  cases left <;> cases right <;> rfl

theorem Holds.isParent {part : Links} {n : Branch} (h : s.Holds part n) (id : String) :
    isParent id s part = (n.left.hasId id || n.right.hasId id) := by
  cases h with
  | absent => rfl
  | node htop hm hl hr =>
    unfold Store.isParent
    exact congrArg₂ _ (hl.hasId id) (hr.hasId id)

/-- The topmost node is removed, if it is a permutation that may be removed. -/
theorem HoldsPlan.removeTop (h : HoldsPlan base s t p i links) (hid : p.root.hasId id) :
    ∃ s', Stored.removeTop t s = some ((p.root.removeAt id).isSome, s') ∧ Kept base s s' ∧
      ∀ b', p.root.removeAt id = some b' → Held base s' t { p with root := b' } := by
  unfold Stored.removeTop Branch.removeAt
  rw [Stored.bind_of_eq (Stored.tree_of_eq h.tree), if_pos hid]
  have hroot := h.root
  generalize p.root = b at hid hroot ⊢
  generalize hlinks : links = top at hroot
  cases hroot with
  | absent => cases hid
  | @node top m l r e left right htop hm hl hr =>
    have honce := h.once
    rw [hlinks] at honce
    have hle : ∀ q, l.uses q ≠ 0 → base ≤ q := by
      intro q hq
      refine h.links_le q fun hz => hq ?_
      rw [hlinks] at hz
      exact (Links.uses_node_eq_zero.mp hz).2.2.1
    obtain ⟨hplan, hkept⟩ := h.write_tree p.sizes hl honce.left hle
    have hmark :
        (e.record l.top? r.top? m).isDeletable = (Branch.node e left right).isDeletable := rfl
    show ∃ s', (Stored.node top >>= _) s = _ ∧ _
    rw [Stored.bind_of_eq (Stored.node_of_eq htop), Entry.record_left, Entry.record_right,
      hl.top?_isSome, hr.top?_isNone, ← isPermutation_node e, hmark]
    by_cases happlies : ((Branch.node e left right).isDeletable &&
        (Branch.node e left right).isPermutation)
    · rw [if_pos happlies, if_pos happlies]
      refine ⟨_, rfl, hkept, ?_⟩
      rintro b' ⟨⟩
      exact ⟨i, l, hplan⟩
    · rw [if_neg happlies, if_neg happlies]
      exact ⟨s, rfl, .refl .., fun b' hb' => by cases hb'⟩

/-- A node below the topmost one is taken away from its parent. -/
theorem HoldsPlan.removeBelow (h : HoldsPlan base s t p i links) (hid : ¬p.root.hasId id) :
    ∃ s', Stored.removeBelow t id s = some ((p.root.removeAt id).isSome, s') ∧ Kept base s s' ∧
      ∀ b', p.root.removeAt id = some b' → Held base s' t { p with root := b' } := by
  unfold Stored.removeBelow Branch.removeAt Branch.parentOf?
  rw [if_neg hid]
  rcases h.firstNode_cases (isParent id) (fun n => n.left.hasId id || n.right.hasId id)
      fun hpart => hpart.isParent id with
    ⟨hfirst, hnone⟩ | ⟨top, m, l, r, e, left, right, hfirst, hfound, hin⟩
  · rw [Stored.bind_of_eq hfirst, hnone]
    exact ⟨s, rfl, .refl .., fun b' hb' => by cases hb'⟩
  rw [Stored.bind_of_eq hfirst, hfound]
  dsimp only
  rcases (hin.holds h.root).dropChild hin.once id with ⟨hwork, hdrop⟩ |
    ⟨s', part', n', hwork, hdrop, hpart', htop', hchange⟩
  · rw [hdrop]
    exact ⟨s, hwork, .refl .., fun b' hb' => by cases hb'⟩
  · obtain ⟨b', hupdate, hkept, hheld⟩ := h.replace hin hpart' htop' hchange
    rw [hdrop]
    dsimp only
    rw [hupdate _ rfl]
    refine ⟨s', hwork, hkept, ?_⟩
    rintro b' ⟨⟩
    exact hheld

theorem Held.removeAt (h : Held base s t p) (id : String) :
    ∃ s', Stored.removeAt t id s = some ((p.removeAt id).isSome, s') ∧ Kept base s s' ∧
      ∀ q, p.removeAt id = some q → Held base s' t q := by
  obtain ⟨i, links, h⟩ := h
  unfold Stored.removeAt Plan.removeAt
  rw [Stored.bind_of_eq (Stored.tree_of_eq h.tree), Stored.look_bind, h.root.hasId id,
    Option.isSome_map]
  have hremove : ∃ s', (if p.root.hasId id then Stored.removeTop t else Stored.removeBelow t id) s =
        some ((p.root.removeAt id).isSome, s') ∧ Kept base s s' ∧
      ∀ b', p.root.removeAt id = some b' → Held base s' t { p with root := b' } := by
    split
    · next hid => exact h.removeTop hid
    · next hid => exact h.removeBelow hid
  obtain ⟨s', hwork, hkept, hheld⟩ := hremove
  refine ⟨s', hwork, hkept, fun q hq => ?_⟩
  obtain ⟨b', hb', rfl⟩ := Option.map_eq_some_iff.mp hq
  exact hheld b' hb'

end Store

end Contraction
