import Contraction.Proofs.Branch.Shape
import Contraction.Proofs.NodeIds
import Contraction.Proofs.Plan.Steps
import Mathlib.Data.List.Nodup

/-!
# Ids are never used twice

The ids of a plan differ, the source of new ids is past all of them, and no node has a right child
alone. This holds of a plan that is read and every step keeps it up: what an edit adds is the next
id, and a removal only takes ids away. Nodes that a caller brings in must have it themselves, and
their numbers must be short enough to be read: setting the nodes takes them over before their ids
are looked through, and it ends at a number that is too long. `nodup_ids_fails` is a plan with an id
that stands twice after that.

* `ReachedBy` — the plans that come of reading and of steps
* `IsNumbered` — what they keep up
-/

namespace Contraction

open Text

/-! ## Reading -/

namespace Branch

variable {b : Branch} {e : Entry} {l r : Branch}

theorem Shows.leftFirst {x : Expression} (h : b.Shows x) : b.LeftFirst := by
  induction h with
  | leaf hl => exact leftFirst_node.mpr ⟨fun _ => rfl, leftFirst_absent, leftFirst_absent⟩
  | permutation hl ho ih => exact leftFirst_node.mpr ⟨fun _ => rfl, ih, leftFirst_absent⟩
  | contraction hl hleft hright ihl ihr =>
    exact leftFirst_node.mpr ⟨fun habsent => absurd habsent hleft.ne_absent, ihl, ihr⟩

theorem filterMap_id?_postorder_node :
    (node e l r).postorder.filterMap id? =
      l.postorder.filterMap id? ++ r.postorder.filterMap id? ++ [e.id] := by
  simp only [postorder_node, List.filterMap_append, List.filterMap_cons, List.filterMap_nil, id?,
    entry?, Option.map_some]

theorem filterMap_id?_postorder_mapTop {f : Entry → Entry} (hf : ∀ e, (f e).id = e.id)
    (b : Branch) : (b.mapTop f).postorder.filterMap id? = b.postorder.filterMap id? := by
  cases b with
  | absent => rfl
  | node e l r =>
    rw [mapTop, filterMap_id?_postorder_node, filterMap_id?_postorder_node, hf]

/-- The nodes of an expression are numbered one by one in post-order. -/
theorem numbers_ofExpression (ids : NodeIds) (x : Expression) :
    (ofExpression ids x).1.postorder.filterMap id? =
        (List.range' ids.next (ofExpression ids x).1.size).map NodeIds.nodeId ∧
      (ofExpression ids x).2.next = ids.next + (ofExpression ids x).1.size := by
  induction x generalizing ids with
  | leaf labels =>
    refine ⟨?_, rfl⟩
    simp only [ofExpression, NodeIds.issue, filterMap_id?_postorder_node, postorder_absent,
      List.filterMap_nil, size]
    rfl
  | permutation operand labels ih =>
    obtain ⟨hids, hnext⟩ := ih ids
    have hsize : (ofExpression ids operand).1.markDeletable.size =
        (ofExpression ids operand).1.size := by
      cases (ofExpression ids operand).1 <;> rfl
    simp only [ofExpression, NodeIds.issue, filterMap_id?_postorder_node, postorder_absent,
      List.filterMap_nil, List.append_nil, size, hsize, hnext, Nat.add_zero]
    refine ⟨?_, by omega⟩
    rw [markDeletable, filterMap_id?_postorder_mapTop (f := Entry.mark) fun _ => rfl, hids,
      List.range'_concat, List.map_append]
    simp [Entry.mark]
  | contraction left right labels ihl ihr =>
    obtain ⟨hleft, hnextl⟩ := ihl ids
    obtain ⟨hright, hnextr⟩ := ihr (ofExpression ids left).2
    rw [hnextl] at hright hnextr
    simp only [ofExpression, NodeIds.issue, filterMap_id?_postorder_node, size, hleft, hright,
      hnextr]
    refine ⟨?_, by omega⟩
    rw [← List.map_append, List.range'_append_1, List.range'_concat, List.map_append]
    simp [Nat.add_assoc]

/-! ## Proper branches -/

/-- The ids differ, and no node has a right child alone. -/
structure IsProper (b : Branch) : Prop where
  distinct : b.ids.Nodup
  leftFirst : b.LeftFirst

theorem isProper_ofExpression (ids : NodeIds) (x : Expression) :
    (ofExpression ids x).1.IsProper where
  distinct := by
    have hperm := (postorder_perm_preorder (ofExpression ids x).1).filterMap id?
    rw [(numbers_ofExpression ids x).1] at hperm
    exact hperm.nodup_iff.mp (List.Nodup.map NodeIds.nodeId_injective (List.nodup_range' ..))
  leftFirst := (shows_ofExpression ids x).leftFirst

theorem isPast_ofExpression (ids : NodeIds) (x : Expression) :
    (ofExpression ids x).2.IsPast (ofExpression ids x).1.ids := by
  obtain ⟨hids, hnext⟩ := numbers_ofExpression ids x
  intro id hid n hn
  have hmem := ((postorder_perm_preorder (ofExpression ids x).1).filterMap id?).mem_iff.mpr hid
  rw [hids] at hmem
  obtain ⟨k, hk, rfl⟩ := List.mem_map.mp hmem
  rw [NodeIds.number?_nodeId, Option.some.injEq] at hn
  rw [List.mem_range'_1] at hk
  omega

end Branch

namespace Plan

variable {p p' : Plan} {id : String} {given : Table Datum} {input : PatchInput} {root : Branch}
  {text : Option String}

/-! ## What the steps keep up -/

/-- The ids differ and the source of new ones is past them, and no node has a right child alone. -/
structure IsNumbered (p : Plan) : Prop where
  proper : p.root.IsProper
  past : p.ids.IsPast p.root.ids

theorem isNumbered_empty : IsNumbered empty where
  proper := ⟨by simp [empty], Branch.leftFirst_absent⟩
  past := by simp [NodeIds.IsPast, empty]

theorem isNumbered_ofText (h : ofText text = .ok p) : p.IsNumbered := by
  obtain ⟨x, rfl⟩ := ofText_eq_ok h
  exact ⟨Branch.isProper_ofExpression ⟨0⟩ x, Branch.isPast_ofExpression ⟨0⟩ x⟩

theorem isNumbered_ofTextOrEmpty (h : ofTextOrEmpty text = .ok p) : p.IsNumbered := by
  rw [ofTextOrEmpty] at h
  split at h
  · exact Except.ok.inj h ▸ isNumbered_empty
  · exact isNumbered_ofText h

namespace IsNumbered

/-- A step that leaves the ids and the shape alone keeps this up. -/
theorem of_ids_eq (h : p.IsNumbered) (hids : p'.root.ids = p.root.ids) (hnext : p'.ids = p.ids)
    (hleft : p.root.LeftFirst → p'.root.LeftFirst) : p'.IsNumbered where
  proper := ⟨hids ▸ h.proper.distinct, hleft h.proper.leftFirst⟩
  past := by
    rw [hids, hnext]
    exact h.past

theorem withRoot (hroot : root.IsProper)
    (hshort : ∀ id ∈ root.ids, (NodeIds.excess? id).isNone) : (p.withRoot root).1.IsNumbered where
  proper := hroot
  past := NodeIds.isPast_avoidAll p.ids hshort

theorem withoutMeasures (h : p.IsNumbered) : p.withoutMeasures.IsNumbered :=
  h.of_ids_eq (Branch.ids_mapEntries (f := Entry.withoutMeasures) (fun _ => rfl) _) rfl
    Branch.leftFirst_mapEntries.mpr

theorem spreadSizes (h : p.IsNumbered) : p.spreadSizes.IsNumbered :=
  h.of_ids_eq (Branch.ids_mapEntries (f := p.spreadEntry) (fun _ => rfl) _) rfl
    Branch.leftFirst_mapEntries.mpr

theorem setSizes (h : p.IsNumbered) (hstep : p.setSizes given = .ok p') : p'.IsNumbered := by
  obtain ⟨checked, -, rfl⟩ := setSizes_eq_ok hstep
  have hentered : IsNumbered { p with sizes := p.sizes.insertAll checked } :=
    h.of_ids_eq rfl rfl fun hleft => hleft
  exact hentered.spreadSizes

theorem swapAt (h : p.IsNumbered) (hstep : p.swapAt id = some p') : p'.IsNumbered := by
  obtain ⟨root, hroot, rfl⟩ := swapAt_eq_some hstep
  have hperm : root.ids.Perm p.root.ids := by
    rw [Branch.ids_eq_bareEntries, Branch.ids_eq_bareEntries]
    exact (Branch.swapAt_bareEntries hroot).map Entry.id
  exact ⟨⟨hperm.nodup_iff.mpr h.proper.distinct, Branch.swapAt_leftFirst hroot h.proper.leftFirst⟩,
    h.past.subset hperm.subset⟩

theorem removeAt (h : p.IsNumbered) (hstep : p.removeAt id = some p') : p'.IsNumbered := by
  obtain ⟨root, hroot, rfl⟩ := removeAt_eq_some hstep
  have hsub : root.ids.Sublist p.root.ids := by
    rw [Branch.ids_eq_bareEntries, Branch.ids_eq_bareEntries]
    exact (Branch.removeAt_bareEntries hroot).map Entry.id
  exact ⟨⟨hsub.nodup h.proper.distinct, Branch.removeAt_leftFirst hroot h.proper.leftFirst⟩,
    h.past.subset hsub.subset⟩

/-- The new node gets the next id, which no other node has. -/
theorem wrapAt (h : p.IsNumbered) (hstep : p.wrapAt id = .ok (some p')) : p'.IsNumbered := by
  obtain ⟨root, hroot, rfl⟩ := wrapAt_eq_ok hstep
  have hperm : root.ids.Perm (p.ids.issue.1 :: p.root.ids) := by
    obtain ⟨before, after, x, hb, hb'⟩ := Branch.wrapAt_bareEntries hroot
    rw [Branch.ids_eq_bareEntries, Branch.ids_eq_bareEntries, hb, hb']
    simp only [List.map_append, List.map_cons, List.append_assoc, List.cons_append,
      List.nil_append]
    exact ((List.Perm.swap _ _ _).append_left _).trans List.perm_middle
  refine ⟨⟨?_, Branch.wrapAt_leftFirst hroot h.proper.leftFirst⟩, ?_⟩
  · exact hperm.nodup_iff.mpr (List.nodup_cons.mpr ⟨h.past.issue_not_mem, h.proper.distinct⟩)
  · exact h.past.issue.subset hperm.subset

theorem rename (h : p.IsNumbered) (hstep : (p.rename input).outcome = .ok (some p')) :
    p'.IsNumbered := by
  obtain ⟨news, root, hroot, rfl⟩ := rename_eq_ok hstep
  -- new labels change neither ids nor shape, one node after the other
  have hkept : root.ids = p.root.ids ∧ root.LeftFirst := by
    refine Branch.renameAll_induction (P := fun b => b.ids = p.root.ids ∧ b.LeftFirst) ?_
      ⟨rfl, h.proper.leftFirst⟩ hroot
    rintro b b' id labels ⟨hids, hleft⟩ hrename
    refine ⟨?_, Branch.renameAt_leftFirst hrename hleft⟩
    obtain ⟨before, after, x, hb, hb'⟩ := Branch.renameAt_bareEntries hrename
    rw [← hids, Branch.ids_eq_bareEntries, Branch.ids_eq_bareEntries, hb, hb']
    simp
  have hroot' : IsNumbered { p with root } :=
    h.of_ids_eq hkept.1 rfl fun _ => hkept.2
  exact hroot'.withoutMeasures.spreadSizes

end IsNumbered

/-! ## Plans that are reached -/

/-- The plans that come of reading a text and of steps, where the nodes that a caller brings in are
of a kind. A step that gives no plan leaves the one there was. -/
inductive ReachedBy (admits : Branch → Prop) : Plan → Prop where
  | ofText {text : Option String} {p : Plan} (h : ofText text = .ok p) : ReachedBy admits p
  | ofTextOrEmpty {text : Option String} {p : Plan} (h : ofTextOrEmpty text = .ok p) :
      ReachedBy admits p
  | withRoot {p : Plan} {root : Branch} (hp : ReachedBy admits p) (hroot : admits root) :
      ReachedBy admits (p.withRoot root).1
  | setSizes {p p' : Plan} {given : Table Datum} (hp : ReachedBy admits p)
      (h : p.setSizes given = .ok p') : ReachedBy admits p'
  | swapAt {p p' : Plan} {id : String} (hp : ReachedBy admits p) (h : p.swapAt id = some p') :
      ReachedBy admits p'
  | wrapAt {p p' : Plan} {id : String} (hp : ReachedBy admits p)
      (h : p.wrapAt id = .ok (some p')) : ReachedBy admits p'
  | removeAt {p p' : Plan} {id : String} (hp : ReachedBy admits p)
      (h : p.removeAt id = some p') : ReachedBy admits p'
  | rename {p p' : Plan} {input : PatchInput} (hp : ReachedBy admits p)
      (h : (p.rename input).outcome = .ok (some p')) : ReachedBy admits p'
  | withoutMeasures {p : Plan} (hp : ReachedBy admits p) : ReachedBy admits p.withoutMeasures

/-- What the steps keep up holds of every plan that is reached. -/
theorem ReachedBy.isNumbered
    (h : p.ReachedBy fun root => root.IsProper ∧ ∀ id ∈ root.ids, (NodeIds.excess? id).isNone) :
    p.IsNumbered := by
  induction h with
  | ofText h => exact isNumbered_ofText h
  | ofTextOrEmpty h => exact isNumbered_ofTextOrEmpty h
  | withRoot hp hroot ih => exact .withRoot hroot.1 hroot.2
  | setSizes hp h ih => exact ih.setSizes h
  | swapAt hp h ih => exact ih.swapAt h
  | wrapAt hp h ih => exact ih.wrapAt h
  | removeAt hp h ih => exact ih.removeAt h
  | rename hp h ih => exact ih.rename h
  | withoutMeasures hp ih => exact ih.withoutMeasures

/-- Where all nodes that come from a caller are proper and have ids that can be read, the ids of a
plan differ, the number of each is below the next one, which therefore makes a new id, and no node
has a right child alone. -/
theorem ReachedBy.nodup_ids
    (h : p.ReachedBy fun root => root.IsProper ∧ ∀ id ∈ root.ids, (NodeIds.excess? id).isNone) :
    p.root.ids.Nodup ∧
      (∀ id ∈ p.root.ids, ∀ n, NodeIds.number? id = some n → n < p.ids.next) ∧
      p.ids.issue.1 ∉ p.root.ids ∧
      ∀ n ∈ p.root.preorder, n.left = .absent → n.right = .absent := by
  have hp := h.isNumbered
  exact ⟨hp.proper.distinct, hp.past, hp.past.issue_not_mem, hp.proper.leftFirst⟩

/-- Nodes whose ids are written with zeros in front and with digits of another script, one of which
is wrapped and swapped afterwards. -/
theorem ReachedBy.nodup_ids_scripts :
    let root : Branch := .node { id := "node_007", labels := [] }
      (.node { id := "node_٣", labels := [some "a"] } .absent .absent)
      (.node { id := "b", labels := [some "a"] } .absent .absent)
    ∃ p q, (empty.withRoot root).1.wrapAt "b" = .ok (some p) ∧ p.swapAt "node_007" = some q ∧
      q.root.ids = ["node_007", "b", "node_8", "node_٣"] ∧ q.ids.next = 9 ∧ q.root.ids.Nodup ∧
      (∀ id ∈ q.root.ids, ∀ n, NodeIds.number? id = some n → n < q.ids.next) ∧
      q.ids.issue.1 ∉ q.root.ids ∧
      ∀ n ∈ q.root.preorder, n.left = .absent → n.right = .absent := by
  intro root
  have hroot : root.IsProper :=
    ⟨by decide +kernel, by simp [root, Branch.leftFirst_node, Branch.leftFirst_absent]⟩
  have hshort : ∀ id ∈ root.ids, (NodeIds.excess? id).isNone := by decide +kernel
  have hreached : (empty.withRoot root).1.ReachedBy fun root =>
      root.IsProper ∧ ∀ id ∈ root.ids, (NodeIds.excess? id).isNone :=
    .withRoot (@ReachedBy.ofTextOrEmpty _ none _ rfl) ⟨hroot, hshort⟩
  have hids : empty.ids.avoidAll root.ids = ⟨8⟩ := by decide +kernel
  have hplan : (empty.withRoot root).1 = { root, ids := ⟨8⟩ } :=
    congrArg (fun ids => ({ root, ids } : Plan)) hids
  rw [hplan] at hreached ⊢
  -- the plan between the two steps and the one after them
  let top : Entry := { id := "node_007", labels := [] }
  let leaf : Branch := .node { id := "node_٣", labels := [some "a"] } .absent .absent
  let wrapped : Branch := .node { id := "b", labels := [some "a"], deletable := .bool true }
    (.node { id := "node_8", labels := [some "a"], deletable := .bool true } .absent .absent)
    .absent
  have hwrap : Plan.wrapAt { root, ids := ⟨8⟩ } "b" =
      .ok (some { root := .node top leaf wrapped, ids := ⟨9⟩ }) := by
    have hid : NodeIds.nodeId 8 = "node_8" := by decide +kernel
    refine wrapAt_of_writable (p := { root, ids := ⟨8⟩ }) ?_ (by decide +kernel)
    show root.wrapAt "b" (NodeIds.nodeId 8) = _
    rw [hid]
    rfl
  have hswap : Plan.swapAt { root := .node top leaf wrapped, ids := ⟨9⟩ } "node_007" =
      some { root := .node top wrapped leaf, ids := ⟨9⟩ } := by
    simp [Plan.swapAt, Branch.swapAt, Branch.find?, Branch.hasId, Branch.id?, Branch.entry?,
      Branch.updateFirst?, Branch.right, Branch.isAbsent, Branch.swapSides, top, wrapped]
  refine ⟨_, _, hwrap, hswap, by simp [top, leaf, wrapped], rfl, ?_⟩
  exact ReachedBy.nodup_ids (.swapAt (.wrapAt hreached hwrap) hswap)

/-- An id with a number that is too long to be read: it is zero, written with zeros. -/
def unreadableId : String :=
  "node_" ++ String.ofList (List.replicate (digitLimit + 1) '0')

theorem digits?_unreadableId :
    NodeIds.digits? unreadableId = some (List.replicate (digitLimit + 1) 0) := by
  have hzero : ∀ c ∈ List.replicate (digitLimit + 1) '0', c.isDigit = true := by
    intro c hc
    rw [(List.mem_replicate.mp hc).2]
    decide
  rw [unreadableId, NodeIds.digits?_of_isDigit (by simp) hzero, List.map_replicate]
  rfl

/-- The id has too many digits, and its number is zero. -/
theorem excess?_unreadableId : NodeIds.excess? unreadableId = some (digitLimit + 1) ∧
    NodeIds.number? unreadableId = some 0 := by
  refine ⟨?_, ?_⟩
  · rw [NodeIds.excess?, digits?_unreadableId, Option.map_some, List.length_replicate]
    exact Option.filter_eq_some_iff.mpr ⟨rfl, decide_eq_true (Nat.lt_succ_self _)⟩
  · have hzeros (k : Nat) : ofDigits (List.replicate k 0) = 0 := by
      induction k with
      | zero => rfl
      | succ k ih => exact ih
    rw [NodeIds.number?, digits?_unreadableId, Option.map_some, hzeros]

/-- Setting nodes that are proper stops at an id that cannot be read and keeps the nodes. The next
number is then not behind the number of this id, nor behind that of the node below it; and so
wrapping that node gives its own id to the new one. -/
theorem nodup_ids_fails :
    let root : Branch := .node { id := unreadableId, labels := [some "a"] }
      (.node { id := "node_0", labels := [some "a"] } .absent .absent) .absent
    let p := (empty.withRoot root).1
    root.IsProper ∧ NodeIds.number? unreadableId = some 0 ∧ p.ids.next = 0 ∧
      ∃ q, p.wrapAt "node_0" = .ok (some q) ∧ q.ReachedBy Branch.IsProper ∧
        q.root.ids = [unreadableId, "node_0", "node_0"] ∧ ¬q.root.ids.Nodup := by
  obtain ⟨hexcess, hnumber⟩ := excess?_unreadableId
  -- nothing else is used of the id, which is too long to be looked at
  generalize unreadableId = u at hexcess hnumber ⊢
  intro root p
  have hne : u ≠ "node_0" := by
    rintro rfl
    exact absurd hexcess (by decide +kernel)
  have hproper : root.IsProper := by
    refine ⟨?_, by simp [root, Branch.leftFirst_node, Branch.leftFirst_absent]⟩
    simp [root, hne]
  -- the ids are looked through up to the first, which ends it
  have hids : empty.ids.avoidAll root.ids = ⟨0⟩ := by
    have hstop : root.ids.takeWhile (fun id => (NodeIds.excess? id).isNone) = [] := by
      rw [show root.ids = [u, "node_0"] by simp [root]]
      exact List.takeWhile_cons_of_neg (by simp [hexcess])
    rw [NodeIds.avoidAll, hstop]
    rfl
  have hplan : p = { root, ids := ⟨0⟩ } := congrArg (fun ids => ({ root, ids } : Plan)) hids
  have hreached : p.ReachedBy Branch.IsProper :=
    .withRoot (@ReachedBy.ofTextOrEmpty _ none _ rfl) hproper
  let top : Entry := { id := u, labels := [some "a"] }
  let inner : Entry := { id := "node_0", labels := [some "a"], deletable := .bool true }
  let after : Branch := .node top (.node inner (.node inner .absent .absent) .absent) .absent
  have hwrap : p.wrapAt "node_0" = .ok (some { root := after, ids := ⟨1⟩ }) := by
    rw [hplan]
    have hid : NodeIds.nodeId 0 = "node_0" := by decide +kernel
    have hwritable : (NodeIds.issue ⟨0⟩).2.areWritable := by decide +kernel
    refine wrapAt_of_writable (p := { root, ids := ⟨0⟩ }) ?_ hwritable
    have htop : ¬root.hasId "node_0" := by
      rw [Branch.hasId, beq_iff_eq]
      exact fun heq => hne (Option.some.inj heq)
    show root.updateFirst? (·.hasId "node_0") (Branch.wrap (NodeIds.nodeId 0)) = _
    rw [hid, Branch.updateFirst?, if_neg htop]
    rfl
  refine ⟨hproper, hnumber, by rw [hplan], _, hwrap, .wrapAt hreached hwrap, ?_, ?_⟩
  · simp [after, top, inner]
  · simp [after, top, inner]

end Plan

end Contraction
