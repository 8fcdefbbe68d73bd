import Contraction.Plan.Renaming
import Contraction.Proofs.Branch.Edits

/-!
# Edits and sizes

An edit looks at ids, shape and marks, and at nothing of what sizes and measures say. So it does the
same to a branch with them and without (`swapAt_unsized` … `renameAll_unsized`), and branches that
are equal without them are still so after an edit.
-/

namespace Contraction

/-- What a node carries without its sizes and its measures. -/
def Entry.unsized (e : Entry) : Entry :=
  { e with sizes := none, measures := .unset }

namespace Branch

variable {b l r : Branch} {e : Entry} {id newId : String}

/-- A copy without sizes and measures. -/
def unsized : Branch → Branch :=
  mapEntries Entry.unsized

theorem unsized_node : (node e l r).unsized = node e.unsized l.unsized r.unsized :=
  rfl

/-! ## What a branch shows of itself -/

@[simp] theorem hasId_unsized (b : Branch) (id : String) : b.unsized.hasId id = b.hasId id := by
  cases b <;> rfl

@[simp] theorem left_unsized (b : Branch) : b.unsized.left = b.left.unsized := by
  cases b <;> rfl

@[simp] theorem right_unsized (b : Branch) : b.unsized.right = b.right.unsized := by
  cases b <;> rfl

@[simp] theorem labels_unsized (b : Branch) : b.unsized.labels = b.labels := by
  cases b <;> rfl

@[simp] theorem isAbsent_unsized (b : Branch) : b.unsized.isAbsent = b.isAbsent := by
  cases b <;> rfl

@[simp] theorem isDeletable_unsized (b : Branch) : b.unsized.isDeletable = b.isDeletable := by
  cases b <;> rfl

@[simp] theorem isContraction_unsized (b : Branch) :
    b.unsized.isContraction = b.isContraction := by
  cases b with
  | absent => rfl
  | node e l r => cases l <;> cases r <;> rfl

@[simp] theorem isPermutation_unsized (b : Branch) :
    b.unsized.isPermutation = b.isPermutation := by
  cases b with
  | absent => rfl
  | node e l r => cases l <;> cases r <;> rfl

@[simp] theorem unmarkDeletable_unsized (b : Branch) :
    b.unsized.unmarkDeletable = b.unmarkDeletable.unsized := by
  cases b <;> rfl

theorem preorder_unsized (b : Branch) : b.unsized.preorder = b.preorder.map unsized := by
  induction b with
  | absent => simp [unsized, mapEntries]
  | node e l r ihl ihr =>
    rw [unsized_node, preorder_node, preorder_node, List.map_cons, List.map_append, ihl, ihr,
      unsized_node]

theorem find?_unsized (b : Branch) (id : String) :
    b.unsized.find? id = (b.find? id).map unsized := by
  rw [find?, find?, preorder_unsized, List.find?_map]
  simp only [Function.comp_def, hasId_unsized]

theorem parentOf?_unsized (b : Branch) (id : String) :
    b.unsized.parentOf? id = (b.parentOf? id).map unsized := by
  rw [parentOf?, parentOf?, preorder_unsized, List.find?_map]
  simp only [Function.comp_def, left_unsized, right_unsized, hasId_unsized]

/-! ## Edits -/

/-- Conditions and changes that do not depend on sizes and measures change the same node. -/
theorem updateFirst?_unsized (holds : Branch → Bool) (change change' : Branch → Branch)
    (hholds : ∀ n, holds n.unsized = holds n)
    (hchange : ∀ n, change' n.unsized = (change n).unsized) (b : Branch) :
    b.unsized.updateFirst? holds change' = (b.updateFirst? holds change).map unsized := by
  induction b with
  | absent => rfl
  | node e l r ihl ihr =>
    have hhere := hholds (node e l r)
    have hchanged := hchange (node e l r)
    rw [unsized_node] at hhere hchanged ⊢
    rw [updateFirst?, updateFirst?, hhere, hchanged, ihl, ihr]
    split
    · rfl
    · cases l.updateFirst? holds change with
      | some l' => rfl
      | none => cases r.updateFirst? holds change <;> rfl

theorem swapAt_unsized (b : Branch) (id : String) :
    b.unsized.swapAt id = (b.swapAt id).map unsized := by
  rw [swapAt, swapAt, find?_unsized]
  cases b.find? id with
  | none => rfl
  | some n =>
    simp only [Option.map_some, right_unsized, isAbsent_unsized]
    split
    · rfl
    · refine updateFirst?_unsized _ _ _ (fun n => hasId_unsized n id) (fun n => ?_) b
      cases n <;> rfl

theorem wrapAt_unsized (b : Branch) (id newId : String) :
    b.unsized.wrapAt id newId = (b.wrapAt id newId).map unsized := by
  refine updateFirst?_unsized _ _ _ (fun n => hasId_unsized n id) (fun n => ?_) b
  cases n <;> rfl

theorem renameAt_unsized (b : Branch) (id : String) (labels : List String) :
    b.unsized.renameAt id labels = (b.renameAt id labels).map unsized := by
  refine updateFirst?_unsized _ _ _ (fun n => hasId_unsized n id) (fun n => ?_) b
  cases n <;> rfl

theorem dropChild?_unsized (b : Branch) (id : String) :
    b.unsized.dropChild? id = (b.dropChild? id).map unsized := by
  cases b with
  | absent => rfl
  | node e l r =>
    rw [unsized_node, dropChild?, dropChild?]
    by_cases hside : l.hasId id = true
    · simp only [hasId_unsized, hside, if_true, isDeletable_unsized, isContraction_unsized,
        left_unsized, right_unsized, isAbsent_unsized, unmarkDeletable_unsized,
        apply_ite (Option.map unsized)]
      rfl
    · simp only [hasId_unsized, hside, if_false, Bool.false_eq_true, isDeletable_unsized,
        isContraction_unsized, left_unsized, right_unsized, isAbsent_unsized,
        unmarkDeletable_unsized, apply_ite (Option.map unsized)]
      rfl

theorem removeAt_unsized (b : Branch) (id : String) :
    b.unsized.removeAt id = (b.removeAt id).map unsized := by
  rw [removeAt, removeAt]
  simp only [hasId_unsized, isDeletable_unsized, isPermutation_unsized, left_unsized,
    parentOf?_unsized]
  split
  · split <;> rfl
  · cases b.parentOf? id with
    | none => rfl
    | some parent =>
      simp only [Option.map_some, dropChild?_unsized]
      cases parent.dropChild? id with
      | none => rfl
      | some changed =>
        refine updateFirst?_unsized _ (fun _ => changed) (fun _ => changed.unsized) (fun n => ?_)
          (fun _ => rfl) b
        simp only [left_unsized, right_unsized, hasId_unsized]

theorem renameAll_unsized (b : Branch) (news : List NewLabels) :
    (b.unsized.renameAll news).1 = (b.renameAll news).1.map unsized := by
  induction news generalizing b with
  | nil => rfl
  | cons new rest ih =>
    have hfirst : (new.nodeId.text?.bind (b.unsized.renameAt · new.labels)) =
        (new.nodeId.text?.bind (b.renameAt · new.labels)).map unsized := by
      cases new.nodeId.text? with
      | none => rfl
      | some id => exact renameAt_unsized b id new.labels
    rw [renameAll, renameAll, hfirst]
    cases new.nodeId.text?.bind (b.renameAt · new.labels) with
    | none => exact ih b
    | some changed =>
      have hrest := ih changed
      simp only [Option.map_some, hrest]
      cases (changed.renameAll rest).1 <;> rfl

end Branch

end Contraction
