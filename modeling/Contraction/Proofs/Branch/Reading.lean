import Contraction.Branch.Reading
import Contraction.Proofs.Plan.Numbering

/-!
# What reading gives to the nodes

A text that is read gives its nodes the next ids of the source, in post-order and without gaps, and
marks the permutations and the tensors that they permute (`MarksPermutations`). A text that is no
expression takes no id.

A permutation is marked when it is put over its operand, and the operand, which has been made
before, is marked anew at that moment. So the induction changes what is known of the operand only at
its topmost node.
-/

namespace Contraction.Branch

variable {b l r : Branch} {e : Entry} {text : Option String}

/-- Whether a node is a permutation does not depend on what it carries. -/
theorem isPermutation_congr (e f : Entry) :
    (node e l r).isPermutation = (node f l r).isPermutation := by
  cases l <;> cases r <;> rfl

/-- The nodes that may be removed are the permutations and what they permute. -/
structure MarksPermutations (b : Branch) : Prop where
  permutation : ∀ n ∈ b.postorder, n.isPermutation = true →
    n.isDeletable = true ∧ n.left.isDeletable = true
  removable : ∀ n ∈ b.postorder, n.isDeletable = true →
    n.isPermutation = true ∨ ∃ m ∈ b.postorder, m.isPermutation = true ∧ n = m.left

namespace MarksPermutations

theorem leaf (he : e.isDeletable = false) : (node e absent absent).MarksPermutations where
  permutation := by simp [isPermutation]
  removable := by simp [isDeletable, entry?, he]

theorem contraction (hl : l.MarksPermutations) (hr : r.MarksPermutations) (hright : r ≠ absent)
    (he : e.isDeletable = false) : (node e l r).MarksPermutations := by
  have htop : (node e l r).isPermutation = false := by
    cases r with
    | absent => exact absurd rfl hright
    | node f x y => cases l <;> rfl
  constructor
  · intro n hn hperm
    rw [postorder_node, List.mem_append, List.mem_append, List.mem_singleton] at hn
    rcases hn with (hn | hn) | rfl
    · exact hl.permutation n hn hperm
    · exact hr.permutation n hn hperm
    · rw [htop] at hperm
      cases hperm
  · intro n hn hmark
    rw [postorder_node, List.mem_append, List.mem_append, List.mem_singleton] at hn
    rcases hn with (hn | hn) | rfl
    · refine (hl.removable n hn hmark).imp_right ?_
      rintro ⟨m, hm, hrest⟩
      exact ⟨m, by simp [hm], hrest⟩
    · refine (hr.removable n hn hmark).imp_right ?_
      rintro ⟨m, hm, hrest⟩
      exact ⟨m, by simp [hm], hrest⟩
    · simp [isDeletable, entry?, he] at hmark

/-- Putting a permutation over a branch marks it and the topmost node below it. -/
theorem permutation_mark (hb : b.MarksPermutations) (hne : b ≠ absent) :
    (node e.mark b.markDeletable absent).MarksPermutations := by
  cases b with
  | absent => exact absurd rfl hne
  | node f x y =>
    show (node e.mark (node f.mark x y) absent).MarksPermutations
    have htop : node f x y ∈ (node f x y).postorder := by simp
    have hbelow : ∀ {n}, n ∈ x.postorder ++ y.postorder → n ∈ (node f x y).postorder := by
      intro n hn
      rw [postorder_node]
      exact List.mem_append_left _ hn
    have hmem : ∀ {n}, n ∈ (node e.mark (node f.mark x y) absent).postorder ↔
        n ∈ x.postorder ++ y.postorder ∨ n = node f.mark x y ∨
          n = node e.mark (node f.mark x y) absent := by
      intro n
      simp [or_assoc]
    constructor
    · intro n hn hperm
      rcases hmem.mp hn with hn | rfl | rfl
      · exact hb.permutation n (hbelow hn) hperm
      · rw [isPermutation_congr f.mark f] at hperm
        exact ⟨rfl, (hb.permutation _ htop hperm).2⟩
      · exact ⟨rfl, rfl⟩
    · intro n hn hmark
      rcases hmem.mp hn with hn | rfl | rfl
      · refine (hb.removable n (hbelow hn) hmark).imp_right ?_
        rintro ⟨m, hm, hperm, hleft⟩
        rw [postorder_node, List.mem_append, List.mem_singleton] at hm
        -- if it was the topmost node that permutes this one, it still does with its new mark
        rcases hm with hm | rfl
        · exact ⟨m, hmem.mpr (Or.inl hm), hperm, hleft⟩
        · exact ⟨node f.mark x y, hmem.mpr (Or.inr (Or.inl rfl)),
            (isPermutation_congr f.mark f).trans hperm, hleft⟩
      · exact Or.inr ⟨_, hmem.mpr (Or.inr (Or.inr rfl)), rfl, rfl⟩
      · exact Or.inl rfl

theorem removable_iff (h : b.MarksPermutations) {n : Branch} (hn : n ∈ b.postorder) :
    n.isDeletable = true ↔
      n.isPermutation = true ∨ ∃ m ∈ b.postorder, m.isPermutation = true ∧ n = m.left := by
  refine ⟨h.removable n hn, ?_⟩
  rintro (hperm | ⟨m, hm, hperm, rfl⟩)
  · exact (h.permutation n hn hperm).1
  · exact (h.permutation m hm hperm).2

end MarksPermutations

theorem marksPermutations_ofExpression (ids : NodeIds) (x : Expression) :
    (ofExpression ids x).1.MarksPermutations := by
  induction x generalizing ids with
  | leaf labels => exact .leaf rfl
  | permutation operand labels ih =>
    exact (ih ids).permutation_mark (shows_ofExpression ids operand).ne_absent
  | contraction left right labels ihl ihr =>
    exact .contraction (ihl ids) (ihr _) (shows_ofExpression _ right).ne_absent rfl

/-! ## Texts -/

theorem ofText_of_misread {error : Misreading} (h : Expression.read text = .error error)
    (ids : NodeIds) : ofText ids text = (.error (.text error), ids) := by
  rw [ofText, h]

theorem ofText_of_read {x : Expression} {ids : NodeIds} (h : Expression.read text = .ok x)
    (hw : (ofExpression ids x).2.areWritable = true) :
    ofText ids text = (.ok (ofExpression ids x).1, (ofExpression ids x).2) := by
  rw [ofText, h]
  simp only [numbered?, hw, if_true]

theorem ofText_of_not_writable {x : Expression} {ids : NodeIds}
    (h : Expression.read text = .ok x) (hw : ¬(ofExpression ids x).2.areWritable = true) :
    (ofText ids text).1 = .error (.conversion .unwritable) := by
  rw [ofText, h]
  simp only [numbered?, hw, if_false, Bool.false_eq_true]

/-- Where a text is read, its nodes have the next ids in post-order, the source stands behind them,
and those nodes may be removed that are permutations or permuted by one. A text that is no
expression is refused, and the source stands where it was. Every text that is an expression is read
as long as the ids of its nodes can be written. -/
theorem ofText_numbers (ids : NodeIds) (text : Option String) :
    (∀ b, (ofText ids text).1 = .ok b →
      b.postorder.filterMap id? = (List.range' ids.next b.size).map NodeIds.nodeId ∧
      (ofText ids text).2.next = ids.next + b.size ∧
      ∀ n ∈ b.postorder, n.isDeletable ↔
        n.isPermutation ∨ ∃ m ∈ b.postorder, m.isPermutation ∧ n = m.left) ∧
    (∀ error, (ofText ids text).1 = .error (.text error) → (ofText ids text).2 = ids) ∧
    (∀ error, (ofText ids text).1 = .error (.text error) ↔ Expression.read text = .error error) ∧
    ((∃ b, (ofText ids text).1 = .ok b) ↔
      ∃ x, Expression.read text = .ok x ∧ (ofExpression ids x).2.areWritable) := by
  cases hread : Expression.read text with
  | error error =>
    rw [ofText_of_misread hread]
    refine ⟨nofun, fun _ _ => rfl, fun other => ?_, by simp⟩
    simp
  | ok x =>
    by_cases hw : (ofExpression ids x).2.areWritable = true
    · rw [ofText_of_read hread hw]
      obtain ⟨hids, hnext⟩ := numbers_ofExpression ids x
      refine ⟨?_, nofun, by simp, by simp [hw]⟩
      rintro _ ⟨⟩
      exact ⟨hids, hnext, fun n hn => (marksPermutations_ofExpression ids x).removable_iff hn⟩
    · rw [ofText_of_not_writable hread hw]
      exact ⟨nofun, nofun, by simp, by simp [hw]⟩

/-- A contraction of a permutation and a leaf is numbered from seven on, and a text that ends too
early takes no number. -/
theorem ofText_numbers_fromSeven :
    (∃ b, (ofText ⟨7⟩ (some "[[i,k]->[k,i]],[k,j]->[i,j]")).1 = .ok b ∧
      b.postorder.filterMap id? = ["node_7", "node_8", "node_9", "node_10"] ∧
      (ofText ⟨7⟩ (some "[[i,k]->[k,i]],[k,j]->[i,j]")).2.next = 11 ∧
      ∀ n ∈ b.postorder, n.isDeletable ↔
        n.isPermutation ∨ ∃ m ∈ b.postorder, m.isPermutation ∧ n = m.left) ∧
    (∃ error, (ofText ⟨7⟩ (some "[i")).1 = .error (.text error)) ∧
    (ofText ⟨7⟩ (some "[i")).2 = ⟨7⟩ := by
  constructor
  · obtain ⟨b, hb, hsize⟩ := exists_ok_of_any
      (x := (ofText ⟨7⟩ (some "[[i,k]->[k,i]],[k,j]->[i,j]")).1) (p := fun b => b.size == 4)
      (by decide +kernel)
    obtain ⟨hids, hnext, hmarks⟩ := (ofText_numbers ⟨7⟩ _).1 b hb
    rw [eq_of_beq hsize] at hids hnext
    exact ⟨b, hb, hids.trans (by decide +kernel), hnext, hmarks⟩
  · obtain ⟨-, hkept, hrefused, -⟩ := ofText_numbers ⟨7⟩ (some "[i")
    obtain ⟨error, herror⟩ : ∃ error, Expression.read (some "[i") = .error error :=
      ⟨⟨.endOfInput, 2, "[i"⟩, by decide +kernel⟩
    exact ⟨⟨error, (hrefused error).mpr herror⟩, hkept error ((hrefused error).mpr herror)⟩

end Contraction.Branch
