import Contraction.Plan.Renaming
import Contraction.Proofs.Branch.Edits
import Contraction.Proofs.Branch.Shape
import Contraction.Proofs.Except

/-!
# What the steps of a plan come to

Each step of a plan, opened once: the branch, the sizes and the ids of the plan that it gives, if it
gives one. Beside them, what the written form depends on.
-/

namespace Contraction

/-- What holds of a branch and outlasts the renaming of one node, with the labels that are to be
given, holds after several nodes have been given new labels. -/
theorem Branch.renameAll_induction_mem {P : Branch → Prop} {news : List NewLabels}
    (hstep : ∀ {b b' : Branch} {id : String} {new : NewLabels}, new ∈ news → P b →
      b.renameAt id new.labels = some b' → P b')
    {b b' : Branch} (hb : P b) (h : (b.renameAll news).1 = some b') : P b' := by
  induction news generalizing b b' with
  | nil => cases h
  | cons new rest ih =>
    have hrest : ∀ {b b' : Branch} {id : String} {new : NewLabels}, new ∈ rest → P b →
        b.renameAt id new.labels = some b' → P b' :=
      fun hmem => hstep (List.mem_cons_of_mem _ hmem)
    rw [renameAll] at h
    split at h
    · next changed hchanged =>
      obtain ⟨id, -, hrename⟩ := Option.bind_eq_some_iff.mp hchanged
      have hP := hstep List.mem_cons_self hb hrename
      dsimp only at h
      -- the last of the changes that apply is what is left
      cases hlast : (changed.renameAll rest).1 with
      | none =>
        rw [hlast, Option.getD_none, Option.some.injEq] at h
        exact h ▸ hP
      | some last =>
        rw [hlast, Option.getD_some, Option.some.injEq] at h
        exact h ▸ ih hrest hP hlast
    · exact ih hrest hb h

/-- What holds of a branch and outlasts the renaming of one node holds after several nodes have been
given new labels. -/
theorem Branch.renameAll_induction {P : Branch → Prop}
    (hstep : ∀ {b b' : Branch} {id labels}, P b → b.renameAt id labels = some b' → P b')
    {b b' : Branch} {news : List NewLabels} (hb : P b) (h : (b.renameAll news).1 = some b') :
    P b' :=
  renameAll_induction_mem (fun _ hP hrename => hstep hP hrename) hb h

/-- The patch that an input is or, as data, says. -/
def PatchInput.patch? : PatchInput → Option Patch
  | .patch given => some given
  | .data value => (Patch.ofDatum value).1.toOption

/-- The node with the sizes of its labels by a table. -/
def Plan.spreadEntry (p : Plan) (e : Entry) : Entry :=
  { e with sizes := some ((p.sizesOf e.labels).map .int) }

namespace Plan

/-- The plan after integers have been entered into its table. -/
def withSizes (p : Plan) (checked : List (String × Int)) : Plan :=
  spreadSizes { p with sizes := p.sizes.insertAll checked }

variable {p p' : Plan} {id : String} {given : Table Datum} {input : PatchInput}
  {text : Option String}

theorem spreadSizes_root (p : Plan) : p.spreadSizes.root = p.root.mapEntries p.spreadEntry :=
  rfl

/-- The sizes of a node's labels, written out. -/
theorem spreadEntry_eq (p : Plan) (e : Entry) :
    p.spreadEntry e = { e with
      sizes := some (e.labels.map fun label => .int ((label.bind p.sizes.get?).getD 2)) } := by
  unfold spreadEntry sizesOf
  rw [List.map_map]
  rfl

theorem ofText_eq_ok (h : ofText text = .ok p) :
    ∃ e, p = { root := (Branch.ofExpression ⟨0⟩ e).1, ids := (Branch.ofExpression ⟨0⟩ e).2 } := by
  rw [ofText] at h
  split at h
  · cases h
  · next e he => exact ⟨e, (Except.ok.inj h).symm⟩

theorem swapAt_eq_some (h : p.swapAt id = some p') :
    ∃ root, p.root.swapAt id = some root ∧ p' = { p with root } := by
  obtain ⟨root, hroot, rfl⟩ := Option.map_eq_some_iff.mp h
  exact ⟨root, hroot, rfl⟩

theorem removeAt_eq_some (h : p.removeAt id = some p') :
    ∃ root, p.root.removeAt id = some root ∧ p' = { p with root } := by
  obtain ⟨root, hroot, rfl⟩ := Option.map_eq_some_iff.mp h
  exact ⟨root, hroot, rfl⟩

theorem wrapAt_of_writable {root : Branch} (h : p.root.wrapAt id p.ids.issue.1 = some root)
    (hw : p.ids.issue.2.areWritable) :
    p.wrapAt id = .ok (some { p with root, ids := p.ids.issue.2 }) := by
  rw [wrapAt]
  dsimp only
  rw [h]
  exact if_pos hw

theorem wrapAt_of_not_writable {root : Branch}
    (h : p.root.wrapAt id p.ids.issue.1 = some root) (hw : ¬p.ids.issue.2.areWritable) :
    p.wrapAt id = .error (.conversion .unwritable) := by
  rw [wrapAt]
  dsimp only
  rw [h]
  exact if_neg hw

/-- A wrapping that is not stopped depends only on whether the node is there. -/
theorem wrapAt_outcome {x : Option Plan} (h : p.wrapAt id = .ok x) :
    x = (p.root.wrapAt id p.ids.issue.1).map fun root => { p with root, ids := p.ids.issue.2 } := by
  cases hroot : p.root.wrapAt id p.ids.issue.1 with
  | none =>
    rw [wrapAt] at h
    dsimp only at h
    rw [hroot] at h
    exact (Except.ok.inj h).symm
  | some root =>
    by_cases hw : p.ids.issue.2.areWritable = true
    · exact (Except.ok.inj ((wrapAt_of_writable hroot hw).symm.trans h)).symm
    · cases (wrapAt_of_not_writable hroot hw).symm.trans h

theorem wrapAt_eq_ok (h : p.wrapAt id = .ok (some p')) :
    ∃ root, p.root.wrapAt id p.ids.issue.1 = some root ∧
      p' = { p with root, ids := p.ids.issue.2 } := by
  obtain ⟨root, hroot, rfl⟩ := Option.map_eq_some_iff.mp (wrapAt_outcome h).symm
  exact ⟨root, hroot, rfl⟩

theorem setSizes_eq (p : Plan) (given : Table Datum) :
    p.setSizes given = (checkedSizes given).map p.withSizes := by
  show (checkedSizes given >>= fun checked => pure (p.withSizes checked)) = _
  cases checkedSizes given <;> rfl

theorem setSizes_eq_ok (h : p.setSizes given = .ok p') :
    ∃ checked, checkedSizes given = .ok checked ∧ p' = p.withSizes checked := by
  rw [setSizes_eq] at h
  obtain ⟨checked, hchecked, rfl⟩ := except_map_eq_ok.mp h
  exact ⟨checked, hchecked, rfl⟩

theorem applyPatch_eq_ok {patch : Patch} (h : (p.applyPatch patch).outcome = .ok (some p')) :
    ∃ root, (p.root.renameAll patch.toList).1 = some root ∧
      p' = spreadSizes { p with root := root.withoutMeasures } := by
  rw [applyPatch] at h
  dsimp only at h
  split at h
  · obtain ⟨root, hroot, rfl⟩ := Option.map_eq_some_iff.mp (Except.ok.inj h)
    exact ⟨root, hroot, rfl⟩
  · split at h
    · cases h
    · cases h

/-- A renaming carries out the patch that is given or read out of the data, if there are any. -/
theorem rename_cases {x : Option Plan} (h : (p.rename input).outcome = .ok x) :
    (input = .data .null ∧ x = none) ∨ (input ≠ .data .null ∧
      ∃ patch, input.patch? = some patch ∧ (p.applyPatch patch).outcome = .ok x) := by
  unfold rename at h
  split at h
  · exact Or.inl ⟨rfl, (Except.ok.inj h).symm⟩
  · next patch => exact Or.inr ⟨nofun, patch, rfl, h⟩
  · next value hnull =>
    refine Or.inr ⟨fun heq => hnull (PatchInput.data.inj heq), ?_⟩
    split at h
    · cases h
    · next patch notices hpatch =>
      refine ⟨patch, ?_, h⟩
      rw [PatchInput.patch?, hpatch]
      rfl

theorem exists_patch_of_rename (h : (p.rename input).outcome = .ok (some p')) :
    ∃ patch root, input.patch? = some patch ∧ (p.root.renameAll patch.toList).1 = some root ∧
      p' = spreadSizes { p with root := root.withoutMeasures } := by
  rcases rename_cases h with ⟨-, hnone⟩ | ⟨-, patch, hpatch, happly⟩
  · cases hnone
  · obtain ⟨root, hroot, hp'⟩ := applyPatch_eq_ok happly
    exact ⟨patch, root, hpatch, hroot, hp'⟩

theorem rename_eq_ok (h : (p.rename input).outcome = .ok (some p')) :
    ∃ news root, (p.root.renameAll news).1 = some root ∧
      p' = spreadSizes { p with root := root.withoutMeasures } := by
  obtain ⟨patch, root, -, hroot, hp'⟩ := exists_patch_of_rename h
  exact ⟨patch.toList, root, hroot, hp'⟩

/-! ## The written form -/

theorem textOf_congr {b c : Branch} (h : b.Alike c) : textOf b = textOf c := by
  have hexpression := h.expression_eq
  cases h with
  | absent => rfl
  | node => simp only [textOf, hexpression]

end Plan

end Contraction
