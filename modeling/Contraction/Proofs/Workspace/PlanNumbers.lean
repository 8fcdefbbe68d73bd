import Contraction.Proofs.Workspace.Actions

/-!
# Plans that have been replaced

The plans of a workspace are numbered in the order in which they become current. A step that is
refused leaves them as they are, and an edit that applies adds the plan that it replaces; the plans
that have been replaced are never changed.

* `planAt_perform`, `planAt_run` — a step and a run keep every plan that has been replaced
-/

namespace Contraction

/-- The actions that put another plan in the place of the current one and answer with its number. -/
def Action.isEdit : Action → Bool
  | .read .. | .resize .. | .configure .. => false
  | .swap .. | .wrap .. | .remove .. | .rename .. => true

namespace Workspace

variable {w ready : Workspace} {action : Action} {n : Nat}

theorem planAt_planNumber (w : Workspace) : w.planAt w.planNumber = w.plan := by
  rw [planAt, planNumber, List.getElem?_eq_none (Nat.le_refl _), Option.getD_none]

/-- A plan that has been replaced is found wherever the replaced plans begin with the same ones. -/
theorem planAt_of_replaced {more : List Plan} (h : ready.replaced = w.replaced ++ more)
    (hn : n < w.replaced.length) : ready.planAt n = w.planAt n := by
  have hsome : w.replaced[n]? = some w.replaced[n] := List.getElem?_eq_getElem hn
  rw [planAt, planAt, h, List.getElem?_append_left hn, hsome, Option.getD_some, Option.getD_some]

/-- What is made ready keeps the plans that have been replaced, and may add the current one. -/
theorem Ready.replaced (h : w.Ready action ready) :
    ∃ more, ready.replaced = w.replaced ++ more := by
  cases h with
  | resize h => exact ⟨[], (List.append_nil _).symm⟩
  | configure h => exact ⟨[], (List.append_nil _).symm⟩
  | read | swap | wrap | remove | rename => exact ⟨_, rfl⟩

/-- A step adds to the plans that have been replaced. -/
theorem replaced_perform (w : Workspace) (action : Action) :
    ∃ more, (w.perform action).workspace.replaced = w.replaced ++ more := by
  rcases w.perform_cases action with hrefused | ⟨ready, hready, haccepted⟩
  · exact ⟨[], by rw [hrefused.workspace, List.append_nil]⟩
  · rw [haccepted.workspace, replaced_measured]
    exact hready.replaced

theorem planAt_perform (action : Action) (hn : n < w.replaced.length) :
    (w.perform action).workspace.planAt n = w.planAt n ∧
      n < (w.perform action).workspace.replaced.length := by
  obtain ⟨more, hmore⟩ := w.replaced_perform action
  refine ⟨planAt_of_replaced hmore hn, ?_⟩
  rw [hmore, List.length_append]
  omega

/-- A run keeps every plan that has been replaced before it. -/
theorem planAt_run (actions : List Action) (hn : n < w.replaced.length) :
    (w.run actions).planAt n = w.planAt n := by
  induction actions generalizing w with
  | nil => rfl
  | cons action actions ih =>
    obtain ⟨hplan, hlt⟩ := planAt_perform action hn
    exact (ih hlt).trans hplan

/-- A plan is found under its number as soon as it has been replaced. -/
theorem planAt_of_replaced_eq (h : ready.replaced = w.replaced ++ [w.plan]) :
    ready.planAt w.planNumber = w.plan ∧ w.planNumber < ready.replaced.length := by
  refine ⟨?_, ?_⟩
  · rw [planAt, h, planNumber, List.getElem?_concat_length, Option.getD_some]
  · rw [h, List.length_append, planNumber]
    exact Nat.lt_succ_self _

end Workspace

end Contraction
