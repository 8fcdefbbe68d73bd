import Contraction.Proofs.Branch.Pruning
import Contraction.Proofs.Expression.Words

/-!
# The text that some nodes span

The text of the nodes with some ids begins at the first of them in pre-order. It is the written form
of what is left below this node when the children that are not selected are taken away
(`spannedText_of_first`), so it is read back as that. `spannedText_prune` is the whole statement,
with what the ids of nodes that are cut off do to it, which is nothing.
-/

namespace Contraction.Plan

variable {p : Plan} {selected : List String} {start : Branch}

theorem spannedText_of_none (h : ∀ id ∈ p.root.ids, id ∉ selected) :
    p.spannedText selected = .ok "" := by
  have hnone : p.root.preorder.find? (Branch.isSelected selected) = none := by
    refine List.find?_eq_none.mpr fun n hn hselected => ?_
    cases n with
    | absent => cases hselected
    | node e l r =>
      exact h e.id (List.mem_filterMap.mpr ⟨_, hn, rfl⟩) (Branch.isSelected_node.mp hselected)
  rw [spannedText, Branch.spanned_of_find? hnone]
  rfl

/-- The text is that of what is left of the first selected node. -/
theorem spannedText_of_first
    (h : p.root.preorder.find? (Branch.isSelected selected) = some start) :
    p.spannedText selected = textOf (start.prune selected) := by
  rw [spannedText, Branch.spanned_of_find? h]
  show ((start.prune selected).expression?.map _).mapError _ = _
  cases start.prune selected with
  | absent => rfl
  | node e l r =>
    rw [Branch.expression?, textOf]
    · cases (Branch.node e l r).expression <;> rfl
    · rintro ⟨⟩
    · rintro ⟨⟩

/-- Where some node is selected there is a first one. -/
theorem exists_first (h : ∃ id ∈ p.root.ids, id ∈ selected) :
    ∃ before start after, p.root.preorder = before ++ start :: after ∧
      (∀ n ∈ before, ¬n.isSelected selected = true) ∧ start.isSelected selected = true := by
  obtain ⟨id, hid, hselected⟩ := h
  obtain ⟨n, hn, hnode⟩ := List.mem_filterMap.mp hid
  have hsome : (p.root.preorder.find? (Branch.isSelected selected)).isSome = true := by
    rw [List.find?_isSome]
    refine ⟨n, hn, ?_⟩
    cases n with
    | absent => cases hnode
    | node e l r =>
      obtain rfl := Option.some.inj hnode
      exact Branch.isSelected_node.mpr hselected
  obtain ⟨start, hstart⟩ := Option.isSome_iff_exists.mp hsome
  obtain ⟨hholds, before, after, hsplit, hbefore⟩ := List.find?_eq_some_iff_append.mp hstart
  exact ⟨before, start, after, hsplit, fun n hn => by simpa using hbefore n hn, hholds⟩

/-- What is left of a node can be written where the plan can. -/
theorem isWritable_prune (h : p.root.IsWritable) (hstart : start ∈ p.root.preorder) :
    (start.prune selected).IsWritable :=
  Branch.isWritable_iff.mpr ⟨Branch.leftFirst_prune selected start,
    (Branch.isWritable_iff.mp (h.of_mem hstart)).2.prune⟩

/-- The text that some nodes span is empty if none of them is there. Else it begins at the first of
them, and is the text of what is left below this one without the children that are not selected and
all that hangs below them; unless it is a leaf without labels, this is what it is read as. Which of
the nodes that are cut off have been selected makes no difference to it. Where all nodes are
selected it is the text of the whole plan. -/
theorem spannedText_prune (p : Plan) (selected : List String) (h : p.root.IsWritable) :
    ((∀ id ∈ p.root.ids, id ∉ selected) → p.spannedText selected = .ok "") ∧
    ((∃ id ∈ p.root.ids, id ∈ selected) →
      ∃ before start after, p.root.preorder = before ++ start :: after ∧
        (∀ n ∈ before, ¬n.isSelected selected) ∧ start.isSelected selected ∧
        (∃ text, p.spannedText selected = .ok text ∧ textOf (start.prune selected) = .ok text ∧
          (¬((start.prune selected).isLeaf ∧ (start.prune selected).labels = []) →
            ∃ q, ofText (some text) = .ok q ∧ q.root.Alike (start.prune selected))) ∧
        ∀ fewer, (start.prune selected).ids ⊆ fewer → fewer ⊆ selected →
          p.spannedText fewer = p.spannedText selected) ∧
    ((∀ id ∈ p.root.ids, id ∈ selected) → p.spannedText selected = p.text) := by
  refine ⟨spannedText_of_none, fun hsome => ?_, fun hall => ?_⟩
  · obtain ⟨before, start, after, hsplit, hbefore, hstart⟩ := exists_first hsome
    have htext := spannedText_of_first (Branch.find?_isSelected hsplit hbefore hstart)
    have hmem : start ∈ p.root.preorder := by simp [hsplit]
    have hwritable : (start.prune selected).IsWritable := isWritable_prune h hmem
    obtain ⟨e, l, r, rfl⟩ : ∃ e l r, start = .node e l r := by
      cases start with
      | absent => cases hstart
      | node e l r => exact ⟨e, l, r, rfl⟩
    obtain ⟨x, y, hnode⟩ := Branch.exists_prune_node selected e l r
    have hpresent : (Branch.node e l r).prune selected ≠ .absent := by
      rw [hnode]
      rintro ⟨⟩
    refine ⟨before, _, after, hsplit, hbefore, hstart, ?_, fun fewer hids hfewer => ?_⟩
    · obtain ⟨d, hshows, -⟩ := hwritable.exists_derivation hpresent
      refine ⟨_, htext.trans (textOf_of_shows hshows), textOf_of_shows hshows, fun hne => ?_⟩
      obtain ⟨text, q, hwritten, hread, halike⟩ := ofText_textOf hwritable hpresent hne
      obtain rfl := Except.ok.inj ((textOf_of_shows hshows).symm.trans hwritten)
      exact ⟨q, hread, halike⟩
    · have hfirst : (Branch.node e l r).isSelected fewer = true :=
        Branch.isSelected_node.mpr (hids (by simp [hnode]))
      have hnone : ∀ n ∈ before, ¬n.isSelected fewer = true := fun n hn hless =>
        hbefore n hn (Branch.isSelected_of_subset hfewer hless)
      rw [htext, spannedText_of_first (Branch.find?_isSelected hsplit hnone hfirst),
        Branch.prune_of_subset hids hfewer]
  · cases hroot : p.root with
    | absent =>
      have hids : ∀ id ∈ p.root.ids, id ∉ selected := by simp [hroot]
      rw [spannedText_of_none hids, text, hroot]
      rfl
    | node e l r =>
      have hfirst : p.root.preorder.find? (Branch.isSelected selected) = some p.root := by
        rw [hroot, Branch.preorder_node]
        refine List.find?_cons_of_pos (Branch.isSelected_node.mpr (hall e.id ?_))
        simp [hroot]
      rw [spannedText_of_first hfirst, Branch.prune_of_forall_mem h.left hall, text]

/-- Of a contraction whose left operand is not selected the right one is left, and of this no child;
a node below the left operand is cut off, and may be selected or not. -/
theorem spannedText_prune_cutOff :
    let x : Branch := .node { id := "x", labels := [some "m", some "j"] } .absent .absent
    let y : Branch := .node { id := "y", labels := [some "j", some "k"] } .absent .absent
    let z : Branch := .node { id := "z", labels := [some "n", some "k"] } .absent .absent
    let a : Branch := .node { id := "a", labels := [some "m", some "k"] } x y
    let b : Branch := .node { id := "b", labels := [some "k", some "n"] } z .absent
    let root : Branch := .node { id := "r", labels := [some "m", some "n"] } a b
    Plan.spannedText { root } ["b", "x", "r"] = .ok "[k,n]->[m,n]" ∧
      (∃ q, ofText (some "[k,n]->[m,n]") = .ok q ∧
        q.root.Alike (root.prune ["b", "x", "r"])) ∧
      Plan.spannedText { root } ["b", "r"] = Plan.spannedText { root } ["b", "x", "r"] := by
  intro x y z a b root
  have hwritable : root.IsWritable := by
    refine Branch.isWritable_iff.mpr ⟨?_, ?_⟩
    · simp [root, a, b, x, y, z, Branch.leftFirst_node, Branch.leftFirst_absent]
    · have hwords : ∀ name ∈ ["m", "n", "k", "j"], Label.IsWord (some name) := by decide +kernel
      simp only [List.forall_mem_cons, List.not_mem_nil, false_imp_iff, implies_true,
        and_true] at hwords
      simp [root, a, b, x, y, z, Branch.allLabels_node, Branch.allLabels_absent, hwords]
  obtain ⟨-, hfirst, -⟩ := spannedText_prune { root } ["b", "x", "r"] hwritable
  obtain ⟨before, start, after, hsplit, hbefore, -, ⟨text, htext, hwritten, hread⟩, hcut⟩ :=
    hfirst ⟨"r", by simp [root], by simp⟩
  -- the topmost node is selected, so nothing is before the first one
  obtain rfl : start = root := by
    cases before with
    | nil =>
      rw [Branch.preorder_node] at hsplit
      exact (List.cons.inj hsplit).1.symm
    | cons n before =>
      rw [Branch.preorder_node] at hsplit
      refine absurd ?_ (hbefore n List.mem_cons_self)
      rw [← (List.cons.inj hsplit).1]
      decide
  have hleft : textOf (root.prune ["b", "x", "r"]) = .ok "[k,n]->[m,n]" := rfl
  obtain rfl := Except.ok.inj (hwritten.symm.trans hleft)
  have hids : (root.prune ["b", "x", "r"]).ids = ["r", "b"] := by
    show (Branch.node _ (.node _ .absent .absent) .absent).ids = _
    simp
  exact ⟨htext, hread (by rintro ⟨⟨⟩, -⟩), hcut _ (by simp [hids]) (by simp)⟩

end Contraction.Plan
