import Contraction.Proofs.Branch.Unwrapping
import Contraction.Proofs.Plan.Numbering

/-!
# Permutations put over nodes and taken away

What the removal of a node comes to in a plan whose ids differ: it takes one entry away and one mark
off, or nothing (`Plan.removeAt_entries`). It undoes a wrapping from either side
(`Plan.IsNumbered.removeAt_wrapAt`): the permutation that was put over a node can be removed, or the
new node below it. A wrapping takes a new id, and this ends at the first number that is too long to
be written (`Plan.removeAt_wrapAt_fails`).
-/

namespace Contraction

open Text

namespace Branch

/-- Where one node stands for another that is alike, the branches are alike. -/
theorem Replaced.alike {n m b b' : Branch} (h : Replaced n m b b') (hm : m.Alike n) :
    b'.Alike b := by
  induction h with
  | here => exact hm
  | left h ih => exact .node rfl ih (.refl _)
  | right h ih => exact .node rfl (.refl _) ih

theorem Replaced.ids_eq {n m b b' : Branch} (h : Replaced n m b b') (hm : m.ids = n.ids) :
    b'.ids = b.ids := by
  obtain ⟨before, after, hb, hb'⟩ := h.entries
  rw [ids_eq_entries m, ids_eq_entries n] at hm
  rw [ids_eq_entries, ids_eq_entries, hb, hb', List.map_append, List.map_append, hm,
    List.map_append, List.map_append]

/-- Where ids differ, a new id for one node leaves those of all others. -/
theorem Replaced.ids_of_id {e f : Entry} {l r b b' : Branch}
    (h : Replaced (node e l r) (node f l r) b b') (hnodup : b.ids.Nodup) :
    b'.ids = b.ids.map fun x => if x = e.id then f.id else x := by
  obtain ⟨before, after, hb, hb'⟩ := h.entries
  have hids : b.ids = before.map Entry.id ++ e.id :: (l.ids ++ r.ids ++ after.map Entry.id) := by
    rw [ids_eq_entries, hb]
    simp [ids_eq_entries]
  have hids' : b'.ids = before.map Entry.id ++ f.id :: (l.ids ++ r.ids ++ after.map Entry.id) := by
    rw [ids_eq_entries, hb']
    simp [ids_eq_entries]
  have hkept : ∀ {xs : List String}, e.id ∉ xs →
      xs.map (fun x => if x = e.id then f.id else x) = xs := by
    intro xs hxs
    refine (List.map_congr_left fun x hx => if_neg ?_).trans (List.map_id xs)
    rintro rfl
    exact hxs hx
  rw [hids, List.nodup_append, List.nodup_cons] at hnodup
  have hbefore : e.id ∉ before.map Entry.id := fun hmem =>
    hnodup.2.2 e.id hmem e.id List.mem_cons_self rfl
  rw [hids, hids', List.map_append, List.map_cons, hkept hbefore, hkept hnodup.2.1.1, if_pos rfl]

/-- A node is found by its id. -/
theorem exists_find? {b : Branch} {id : String} (h : id ∈ b.ids) : ∃ n, b.find? id = some n := by
  obtain ⟨n, hn, hid⟩ := List.mem_filterMap.mp h
  rw [← Option.isSome_iff_exists, find?, List.find?_isSome]
  exact ⟨n, hn, beq_iff_eq.mpr hid⟩

theorem alike_unmarkDeletable (b : Branch) : b.unmarkDeletable.Alike b := by
  cases b with
  | absent => exact .absent
  | node e l r => exact .node rfl (.refl l) (.refl r)

end Branch

namespace Plan

variable {p : Plan} {id : String}

theorem removeAt_of_root {root : Branch} (h : p.root.removeAt id = some root) :
    p.removeAt id = some { p with root } := by
  rw [removeAt, h]
  rfl

/-! ## Removal -/

/-- In a plan whose ids differ, a node is removed exactly if it may be: the topmost one if it is a
permutation, and any other one if it is a permutation or an only child. Then its entry goes, and all
others stay as they are and in their order, but for one mark: below the top, that of the child which
is left in the place of a permutation, or else that of the parent, is taken off. -/
theorem removeAt_entries (p : Plan) (id : String) (h : p.root.IsProper) :
    ((∃ p', p.removeAt id = some p') ↔ p.root.Removable id) ∧
    (¬p.root.Removable id → p.removeAt id = none) ∧
    ∀ p', p.removeAt id = some p' → p'.sizes = p.sizes ∧ p'.ids = p.ids ∧
      (p.root.hasId id → ∃ e, p.root.entries = e :: p'.root.entries ∧ e.id = id) ∧
      ∀ parent ∈ p.root.preorder, ∀ n ∈ parent.children, n.hasId id →
        ∃ before e after, p.root.entries = before ++ e :: after ∧ e.id = id ∧
          p'.root.entries = (before ++ after).map
            (Entry.unmarkIf (if n.isPermutation then n.left.id? else parent.id?)) := by
  have hiff : (∃ p', p.removeAt id = some p') ↔ p.root.Removable id := by
    rw [← Branch.removeAt_isSome h.leftFirst h.distinct]
    constructor
    · rintro ⟨p', hp'⟩
      obtain ⟨root, hroot, -⟩ := removeAt_eq_some hp'
      exact ⟨root, hroot⟩
    · rintro ⟨root, hroot⟩
      exact ⟨_, removeAt_of_root hroot⟩
  refine ⟨hiff, fun hno => ?_, fun p' hp' => ?_⟩
  · rw [Option.eq_none_iff_forall_ne_some]
    exact fun p' hp' => hno (hiff.mp ⟨p', hp'⟩)
  · obtain ⟨root, hroot, rfl⟩ := removeAt_eq_some hp'
    exact ⟨rfl, rfl, fun hid => Branch.removeAt_top_entries hid hroot,
      fun parent hp n hn hid =>
        Branch.removeAt_child_entries h.leftFirst h.distinct hp hn hid hroot⟩

/-- A permutation on the right side of a contraction goes, and its child is no longer marked; a leaf
without a mark stays. -/
theorem removeAt_entries_right :
    let leaf : Branch := .node { id := "a", labels := [some "x"] } .absent .absent
    let inner : Branch :=
      .node { id := "i", labels := [some "y"], deletable := .bool true } .absent .absent
    let outer : Branch :=
      .node { id := "o", labels := [some "y"], deletable := .bool true } inner .absent
    let root : Branch := .node { id := "r", labels := [some "x", some "y"] } leaf outer
    (∃ p', Plan.removeAt { root } "o" = some p' ∧ ∃ before e after,
      root.entries = before ++ e :: after ∧ e.id = "o" ∧
        p'.root.entries = (before ++ after).map (Entry.unmarkIf (some "i"))) ∧
      Plan.removeAt { root } "a" = none := by
  intro leaf inner outer root
  have hproper : root.IsProper := by
    constructor
    · simp [root, leaf, outer, inner]
    · simp [root, leaf, outer, inner, Branch.leftFirst_node, Branch.leftFirst_absent]
  have hchild : outer ∈ root.children := Branch.mem_children.mpr ⟨nofun, Or.inr rfl⟩
  have hroot : root ∈ root.preorder := by simp [root]
  obtain ⟨hiff, -, hall⟩ := removeAt_entries { root } "o" hproper
  obtain ⟨p', hp'⟩ := hiff.mpr (Or.inr ⟨root, hroot, outer, hchild, rfl, rfl, Or.inl rfl⟩)
  obtain ⟨-, -, -, hbelow⟩ := hall p' hp'
  refine ⟨⟨p', hp', hbelow root hroot outer hchild rfl⟩, ?_⟩
  refine (removeAt_entries { root } "a" hproper).2.1 ?_
  simp [Branch.Removable, root, leaf, outer, inner, Branch.children, Branch.left, Branch.right,
    Branch.isAbsent, Branch.hasId, Branch.id?, Branch.entry?, Branch.isPermutation,
    Branch.isDeletable]

/-! ## Removal after wrapping -/

/-- A node that has been wrapped can be unwrapped from either side. When the permutation over it is
removed, the new node stands in its place, which differs from it in its id, its mark and in that it
has no measures. When the new node is removed, the node is back with its id and its measures, and
only its mark and that of its child may differ. Nothing else of the tree has changed. -/
theorem IsNumbered.removeAt_wrapAt (hp : p.IsNumbered) (hx : id ∈ p.root.ids)
    (hw : p.ids.issue.2.areWritable) :
    p.ids.issue.1 ∉ p.root.ids ∧
    ∃ p₁ e l r, p.wrapAt id = .ok (some p₁) ∧ p₁.ids = p.ids.issue.2 ∧
      p.root.find? id = some (.node e l r) ∧
      (∃ p₂ mark, p₁.removeAt id = some p₂ ∧ p₂.sizes = p.sizes ∧ p₂.text = p.text ∧
        p₂.root.ids = p.root.ids.map (fun x => if x = id then p.ids.issue.1 else x) ∧
        Branch.Replaced (.node e l r)
          (.node { e with id := p.ids.issue.1, deletable := mark, measures := .unset } l r)
          p.root p₂.root) ∧
      ∃ p₃ mark child, p₁.removeAt p.ids.issue.1 = some p₃ ∧ p₃.sizes = p.sizes ∧
        p₃.text = p.text ∧ p₃.root.ids = p.root.ids ∧
        (child = l ∨ child = l.unmarkDeletable) ∧
        Branch.Replaced (.node e l r) (.node { e with deletable := mark } child r)
          p.root p₃.root := by
  obtain ⟨n, hfind⟩ := Branch.exists_find? hx
  obtain ⟨root, hroot⟩ : ∃ root, p.root.wrapAt id p.ids.issue.1 = some root :=
    Branch.exists_updateFirst? hfind
  have hwrap := wrapAt_of_writable hroot hw
  obtain ⟨hdistinct, hleft⟩ := (hp.wrapAt hwrap).proper
  obtain ⟨e, l, r, hfind, hreplaced⟩ := Branch.wrapAt_eq_some hroot
  obtain rfl : e.id = id := Option.some.inj (Branch.id?_of_find? hfind)
  refine ⟨hp.past.issue_not_mem, _, e, l, r, hwrap, rfl, hfind, ?_, ?_⟩
  · obtain ⟨after, mark, hafter, hback⟩ :=
      Branch.removeAt_outer hreplaced hdistinct hleft rfl
    refine ⟨{ p with root := after, ids := p.ids.issue.2 }, mark, removeAt_of_root hafter, rfl, ?_,
      hback.ids_of_id hp.proper.distinct, hback⟩
    exact textOf_congr (hback.alike (.node rfl (.refl l) (.refl r)))
  · obtain ⟨after, mark, child, hafter, hchild, hback⟩ :=
      Branch.removeAt_inner hreplaced hdistinct hleft rfl
    have hlike : child.Alike l := by
      rcases hchild with rfl | rfl
      · exact .refl _
      · exact Branch.alike_unmarkDeletable l
    have hids : child.ids = l.ids := by
      rcases hchild with rfl | rfl
      · rfl
      · rw [Branch.ids_eq_bareEntries, Branch.bareEntries_unmarkDeletable,
          ← Branch.ids_eq_bareEntries]
    refine ⟨{ p with root := after, ids := p.ids.issue.2 }, mark, child, removeAt_of_root hafter,
      rfl, ?_, ?_, hchild, hback⟩
    · exact textOf_congr (hback.alike (.node rfl hlike (.refl r)))
    · refine hback.ids_eq ?_
      rw [Branch.ids_node, Branch.ids_node, hids]
      rfl

/-- A permutation on the right side of a contraction is wrapped; the two removals take different
ways through the tree, since the new node is a permutation and an only child. -/
theorem removeAt_wrapAt_right :
    let leaf : Branch := .node { id := "a", labels := [some "x"] } .absent .absent
    let inner : Branch :=
      .node { id := "i", labels := [some "y"], deletable := .bool true } .absent .absent
    let outer : Branch := .node { id := "o", labels := [some "y"] } inner .absent
    let root : Branch := .node { id := "r", labels := [some "x", some "y"] } leaf outer
    let p := (empty.withRoot root).1
    ∃ p₁ p₂ p₃, p.wrapAt "o" = .ok (some p₁) ∧
      p₁.removeAt "o" = some p₂ ∧ p₂.root.ids = ["r", "a", "node_0", "i"] ∧ p₂.text = p.text ∧
      p₁.removeAt "node_0" = some p₃ ∧ p₃.root.ids = ["r", "a", "o", "i"] ∧ p₃.text = p.text := by
  intro leaf inner outer root p
  have hproper : root.IsProper := by
    constructor
    · simp [root, leaf, outer, inner]
    · simp [root, leaf, outer, inner, Branch.leftFirst_node, Branch.leftFirst_absent]
  have hshort : ∀ id ∈ root.ids, (NodeIds.excess? id).isNone := by decide +kernel
  have hplan : p = { root } := by
    have hids : empty.ids.avoidAll root.ids = ⟨0⟩ := by decide +kernel
    exact congrArg (fun ids => ({ root, ids } : Plan)) hids
  have hnumbered : p.IsNumbered := .withRoot hproper hshort
  have hids : p.root.ids = ["r", "a", "o", "i"] := by simp [p, withRoot, root, leaf, outer, inner]
  have hnew : p.ids.issue.1 = "node_0" := by
    rw [hplan]
    decide +kernel
  obtain ⟨-, p₁, e, l, r, hwrap, -, -, ⟨p₂, -, hremove, -, htext, hids₂, -⟩,
      p₃, -, -, hremove₃, -, htext₃, hids₃, -⟩ :=
    hnumbered.removeAt_wrapAt (show "o" ∈ p.root.ids by simp [hids])
      (by rw [hplan]; decide +kernel)
  rw [hnew] at hids₂ hremove₃
  exact ⟨p₁, p₂, p₃, hwrap, hremove, by simp [hids₂, hids], htext, hremove₃, hids₃.trans hids,
    htext₃⟩

/-- The id with the greatest number that can be read: it is written with nines. -/
def longestId : String :=
  "node_" ++ String.ofList (List.replicate digitLimit '9')

theorem ofDigits_nines (k : Nat) : ofDigits (List.replicate k 9) + 1 = Nat.pow 10 k := by
  induction k with
  | zero => rfl
  | succ k ih =>
    rw [ofDigits] at ih
    rw [ofDigits, List.replicate_succ', List.foldl_append, List.foldl_cons, List.foldl_nil]
    show _ = Nat.pow 10 k * 10
    omega

/-- The number of the id is read, and it is the last one that can be written. -/
theorem number?_longestId : (NodeIds.excess? longestId).isNone = true ∧
    ∃ n, NodeIds.number? longestId = some n ∧ n + 1 = Nat.pow 10 digitLimit := by
  have hnine : ∀ c ∈ List.replicate digitLimit '9', c.isDigit = true := by
    intro c hc
    rw [(List.mem_replicate.mp hc).2]
    decide
  have hne : List.replicate digitLimit '9' ≠ [] :=
    mt (congrArg List.length) (by rw [List.length_replicate]; decide)
  have hdigits : NodeIds.digits? longestId = some (List.replicate digitLimit 9) := by
    rw [longestId, NodeIds.digits?_of_isDigit hne hnine, List.map_replicate]
    rfl
  constructor
  · rw [NodeIds.excess?, hdigits, Option.map_some, List.length_replicate, Option.isNone_iff_eq_none]
    exact Option.filter_eq_none_iff.mpr fun n hn => by
      rw [← Option.some.inj hn]
      simp
  · exact ⟨_, by rw [NodeIds.number?, hdigits, Option.map_some], ofDigits_nines digitLimit⟩

/-- After the last number that can be written no further id can be issued. -/
theorem not_areWritable_issue {ids : NodeIds} (h : ids.next = Nat.pow 10 digitLimit) :
    ¬ids.issue.2.areWritable = true := by
  rw [NodeIds.areWritable, decide_eq_true_iff, ← h]
  exact Nat.not_succ_le_self ids.next

/-- A node whose id has the last number that can be written is no longer wrapped, although nothing
is wrong with the plan. -/
theorem removeAt_wrapAt_fails :
    let root : Branch := .node { id := longestId, labels := [some "a"] } .absent .absent
    let p := (empty.withRoot root).1
    (empty.withRoot root).2 = none ∧ p.IsNumbered ∧ longestId ∈ p.root.ids ∧
      p.wrapAt longestId = .error (.conversion .unwritable) := by
  obtain ⟨hexcess, n, hnumber, hn⟩ := number?_longestId
  -- nothing else is used of the id, which is too long to be looked at
  generalize longestId = u at hexcess hnumber ⊢
  intro root p
  have hids : root.ids = [u] := by simp [root]
  have hproper : root.IsProper :=
    ⟨by simp [hids], by simp [root, Branch.leftFirst_node, Branch.leftFirst_absent]⟩
  have hshort : ∀ id ∈ root.ids, (NodeIds.excess? id).isNone := by simpa [hids] using hexcess
  have hnext : empty.ids.avoidAll root.ids = ⟨n + 1⟩ := by
    have hall : [u].takeWhile (fun id => (NodeIds.excess? id).isNone) = [u] := by simp [hexcess]
    rw [NodeIds.avoidAll, hids, hall, List.foldl_cons, List.foldl_nil, NodeIds.avoid, hnumber]
    exact congrArg NodeIds.mk (Nat.zero_max _)
  have hplan : p = { root, ids := ⟨n + 1⟩ } :=
    congrArg (fun ids => ({ root, ids } : Plan)) hnext
  refine ⟨?_, .withRoot hproper hshort, ?_, ?_⟩
  · rw [withRoot]
    dsimp only
    rw [hids, List.findSome?_cons, Option.isNone_iff_eq_none.mp hexcess]
    rfl
  · rw [hplan, hids]
    exact List.mem_singleton_self u
  · rw [hplan]
    have hfind : root.find? u = some root := by
      simp [root, Branch.find?, Branch.hasId, Branch.id?, Branch.entry?]
    obtain ⟨after, hafter⟩ : ∃ after, root.wrapAt u (NodeIds.nodeId (n + 1)) = some after :=
      Branch.exists_updateFirst? hfind
    exact wrapAt_of_not_writable hafter (not_areWritable_issue hn)

end Plan

end Contraction
