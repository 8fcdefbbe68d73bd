import Contraction.Proofs.Expression.Words
import Contraction.Proofs.Workspace.WellFormed

/-!
# The written form of a workspace

The plan of a workspace is written in the notation that is read. No step brings in a right child
that stands alone, so what can go wrong is the labels: the notation has letters and digits, and a
text that is read brings no others. A renaming may bring any, and the written form is read back as
the same tree exactly as long as all labels are words.

* `ReachedBy.allLabels_isWord` — where all labels stay words
* `ReachedBy.text_reads` — what is written is read back
-/

namespace Contraction

/-! ## Labels that come in -/

/-- New labels take the place of those of one node. -/
theorem Branch.AllLabels.renameAt {b b' : Branch} {P : Label → Prop} {id : String}
    {labels : List String} (hb : b.AllLabels P) (hlabels : ∀ name ∈ labels, P (some name))
    (h : b.renameAt id labels = some b') : b'.AllLabels P := by
  obtain ⟨before, after, x, hbefore, hafter⟩ := renameAt_bareEntries h
  intro e he label hlabel
  rw [hafter] at he
  simp only [List.mem_append, List.mem_singleton] at he
  rcases he with (he | rfl) | he
  · exact hb e (by simp [hbefore, he]) label hlabel
  · obtain ⟨name, hname, rfl⟩ := List.mem_map.mp hlabel
    exact hlabels name hname
  · exact hb e (by simp [hbefore, he]) label hlabel

namespace Plan

variable {p p' : Plan} {given : Table Datum} {P : Label → Prop}

theorem allLabels_spreadSizes (h : p.root.AllLabels P) : p.spreadSizes.root.AllLabels P := by
  intro e he label hlabel
  rw [spreadSizes_root, Branch.bareEntries_mapEntries (g := p.spreadEntry) fun _ => rfl] at he
  obtain ⟨x, hx, rfl⟩ := List.mem_map.mp he
  exact h x hx label hlabel

theorem allLabels_setSizes (h : p.root.AllLabels P) (hstep : p.setSizes given = .ok p') :
    p'.root.AllLabels P := by
  obtain ⟨checked, -, rfl⟩ := setSizes_eq_ok hstep
  exact allLabels_spreadSizes (p := { p with sizes := p.sizes.insertAll checked }) h

end Plan

/-- The labels that a patch brings in have a property. -/
def PatchInput.Brings (P : Label → Prop) (input : PatchInput) : Prop :=
  ∀ patch, input.patch? = some patch → ∀ new ∈ patch.toList, ∀ name ∈ new.labels, P (some name)

/-- The labels that an action brings in, apart from those of a text, have a property. -/
def Action.Brings (P : Label → Prop) : Action → Prop
  | .rename input => input.Brings P
  | _ => True

theorem Plan.allLabels_rename {p p' : Plan} {input : PatchInput} {P : Label → Prop}
    (h : p.root.AllLabels P) (hinput : input.Brings P)
    (hstep : (p.rename input).outcome = .ok (some p')) : p'.root.AllLabels P := by
  obtain ⟨patch, root, hpatch, hroot, rfl⟩ := exists_patch_of_rename hstep
  have hrenamed : root.AllLabels P :=
    Branch.renameAll_induction_mem
      (fun hmem hb hrename => Branch.AllLabels.renameAt hb (hinput patch hpatch _ hmem) hrename)
      h hroot
  refine allLabels_spreadSizes ?_
  exact hrenamed.of_tensorsFrom (Branch.tensorsFrom_of_withoutMeasures_eq
    (Branch.withoutMeasures_withoutMeasures root))

namespace Workspace

variable {w ready : Workspace} {action : Action} {admits : Action → Prop} {P : Label → Prop}

/-! ## Labels after any steps -/

theorem allLabels_measured (h : w.plan.root.AllLabels P) :
    w.measured.workspace.plan.root.AllLabels P := by
  obtain ⟨root, totals, hroot, hw⟩ := w.measured_keeps
  rw [hw]
  exact h.of_tensorsFrom (Branch.tensorsFrom_of_withoutMeasures_eq hroot)

theorem Ready.allLabels_isWord (hready : w.Ready action ready)
    (h : w.plan.root.AllLabels Label.IsWord) (ha : action.Brings Label.IsWord) :
    ready.plan.root.AllLabels Label.IsWord := by
  have hbare : w.plan.withoutMeasures.root.AllLabels Label.IsWord :=
    h.of_tensorsFrom (Branch.tensorsFrom_of_withoutMeasures_eq
      (Branch.withoutMeasures_withoutMeasures w.plan.root))
  cases hready with
  | read hread hsizes =>
    obtain ⟨sizes, -, hset⟩ := except_bind_eq_ok.mp hsizes
    exact Plan.allLabels_setSizes (Plan.allLabels_isWord_ofText hread) hset
  | resize hset => exact Plan.allLabels_setSizes h hset
  | configure hcheck => exact h
  | swap hswap =>
    obtain ⟨root, hroot, rfl⟩ := Plan.swapAt_eq_some hswap
    exact hbare.of_tensorsFrom (Branch.swapAt_tensorsFrom hroot)
  | wrap hwrap =>
    obtain ⟨root, hroot, rfl⟩ := Plan.wrapAt_eq_ok hwrap
    exact hbare.of_tensorsFrom (Branch.wrapAt_tensorsFrom hroot)
  | remove hremove =>
    obtain ⟨root, hroot, rfl⟩ := Plan.removeAt_eq_some hremove
    exact hbare.of_tensorsFrom (Branch.removeAt_tensorsFrom hroot)
  | rename hrename hsizes =>
    obtain ⟨sizes, -, hset⟩ := except_bind_eq_ok.mp hsizes
    exact Plan.allLabels_setSizes (Plan.allLabels_rename hbare ha hrename) hset

theorem allLabels_isWord_perform (h : w.plan.root.AllLabels Label.IsWord)
    (ha : action.Brings Label.IsWord) :
    (w.perform action).workspace.plan.root.AllLabels Label.IsWord := by
  rcases w.perform_cases action with hrefused | ⟨ready, hready, haccepted⟩
  · rw [hrefused.workspace]
    exact h
  · rw [haccepted.workspace]
    exact allLabels_measured (hready.allLabels_isWord h ha)

theorem ReachedBy.allLabels_isWord (h : w.ReachedBy admits)
    (hadmits : ∀ action, admits action → action.Brings Label.IsWord) :
    w.plan.root.AllLabels Label.IsWord := by
  induction h with
  | @begun settings text given step refusal hnew hok =>
    obtain ⟨config, hconfig, rfl | rfl⟩ := new_eq_ok hnew
    · exact Branch.allLabels_absent
    · show (({ config } : Workspace).perform (.read text given)).workspace.plan.root.AllLabels _
      exact allLabels_isWord_perform Branch.allLabels_absent trivial
  | performed h ha ih => exact allLabels_isWord_perform ih (hadmits _ ha)

/-! ## Writing and reading back -/

/-- After any steps, answered or not, the written form of the plan, if it has nodes and is no leaf
without labels, is read as a tree of the same shape with the same labels exactly if all of its
labels are words; and they are as long as no renaming brings in others. -/
theorem ReachedBy.text_reads (h : w.ReachedBy admits) (hroot : w.plan.root ≠ .absent)
    (hne : ¬(w.plan.root.isLeaf = true ∧ w.plan.root.labels = [])) :
    ((∃ written q, w.text = .ok written ∧ Plan.ofText (some written) = .ok q ∧
        q.root.Alike w.plan.root) ↔ w.plan.root.AllLabels Label.IsWord) ∧
      ((∀ action, admits action → action.Brings Label.IsWord) →
        w.plan.root.AllLabels Label.IsWord) := by
  have hleft := h.wellFormed.numbered.proper.leftFirst
  refine ⟨⟨?_, fun hwords => ?_⟩, h.allLabels_isWord⟩
  · rintro ⟨written, q, -, hread, halike⟩
    exact halike.allLabels (Plan.allLabels_isWord_ofText hread)
  · exact Plan.ofText_textOf (Branch.isWritable_iff.mpr ⟨hleft, hwords⟩) hroot hne

/-- A product whose nodes are all renamed is written with the new labels, and read back. -/
theorem text_reads_renamed : ∃ (w : Workspace) (q : Plan),
    w.ReachedBy (fun action => action.Brings Label.IsWord) ∧
      w.text = .ok "[x1,K],[K,y]->[x1,y]" ∧
      Plan.ofText (some "[x1,K],[K,y]->[x1,y]") = .ok q ∧ q.root.Alike w.plan.root := by
  let patch : Patch :=
    { root := some ⟨.text "node_2", ["x1", "y"]⟩
      left := some ⟨.text "node_0", ["x1", "K"]⟩
      right := some ⟨.text "node_1", ["K", "y"]⟩ }
  have hbrings : Action.Brings Label.IsWord (.rename (.patch patch)) := by
    have hall : ∀ new ∈ patch.toList, ∀ name ∈ new.labels, Label.IsWord (some name) := by
      decide +kernel
    rintro _ ⟨⟩
    exact hall
  obtain ⟨w, hw, htest⟩ := exists_reachedBy (fun action => action.Brings Label.IsWord) {}
    (some "[i,k],[k,j]->[i,j]") .empty
    (fun w =>
      let renamed := (w.perform (.rename (.patch patch))).workspace
      renamed.text.toOption.any (· == "[x1,K],[K,y]->[x1,y]") && !renamed.plan.root.isAbsent &&
        !renamed.plan.root.isLeaf)
    (by decide +kernel)
  simp only [Bool.and_eq_true, Bool.not_eq_true'] at htest
  obtain ⟨⟨htext, habsent⟩, hleaf⟩ := htest
  obtain ⟨written, htext, heq⟩ := exists_ok_of_any htext
  obtain rfl := eq_of_beq heq
  have hreached := hw.performed hbrings
  have hroot : (w.perform (.rename (.patch patch))).workspace.plan.root ≠ .absent := by
    intro hnil
    rw [hnil] at habsent
    cases habsent
  obtain ⟨hreads, hwords⟩ := hreached.text_reads hroot (by simp [hleaf])
  obtain ⟨written, q, hwritten, hread, halike⟩ := hreads.mpr (hwords fun _ ha => ha)
  obtain rfl := Except.ok.inj (hwritten.symm.trans htext)
  exact ⟨_, q, hreached, htext, hread, halike⟩

/-- A renaming may bring in a label with a comma, and the permutation is then read with two labels
in the place of one. -/
theorem text_reads_fails : ∃ w : Workspace, w.ReachedBy (fun _ => True) ∧
    w.plan.root ≠ .absent ∧ ¬(w.plan.root.isLeaf = true ∧ w.plan.root.labels = []) ∧
    w.text = .ok "[a]->[b,c]" ∧
    ¬∃ written q, w.text = .ok written ∧ Plan.ofText (some written) = .ok q ∧
      q.root.Alike w.plan.root := by
  let patch : Patch := { root := some ⟨.text "node_1", ["b,c"]⟩ }
  obtain ⟨w, hw, htest⟩ := exists_reachedBy (fun _ => True) {} (some "[a]->[b]") .empty
    (fun w =>
      let renamed := (w.perform (.rename (.patch patch))).workspace
      renamed.text.toOption.any (· == "[a]->[b,c]") &&
        decide (renamed.plan.root.labels = [some "b,c"]))
    (by decide +kernel)
  obtain ⟨htext, hlabels⟩ := (Bool.and_eq_true _ _).mp htest
  replace hlabels := of_decide_eq_true hlabels
  obtain ⟨written, htext, heq⟩ := exists_ok_of_any htext
  obtain rfl := eq_of_beq heq
  have hreached : (w.perform (.rename (.patch patch))).workspace.ReachedBy fun _ => True :=
    hw.performed trivial
  refine ⟨_, hreached, ?_, ?_, htext, ?_⟩
  · intro hnil
    rw [hnil] at hlabels
    cases hlabels
  · rintro ⟨-, hnil⟩
    rw [hnil] at hlabels
    cases hlabels
  · rintro ⟨written, q, -, hread, halike⟩
    -- what is read has words for labels, and the label with the comma is none
    have hword := (halike.allLabels (Plan.allLabels_isWord_ofText hread)).top (some "b,c")
      (by rw [hlabels]; exact List.mem_singleton_self _)
    exact absurd hword (by decide +kernel)

end Workspace

end Contraction
