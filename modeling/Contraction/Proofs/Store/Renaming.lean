import Contraction.Proofs.Store.Trees

/-!
# Renaming in a store

New labels are written to the records of a tree, and then all its nodes are made anew. The nodes
that the tree had before stay in the store, but none of them belongs to the tree any more.
-/

namespace Contraction.Store

variable {base t : Nat} {s : Store} {p : Plan}

/-- Work on a tree does what an edit does to the plan that the tree holds, and tells the same. -/
def Edits (base : Nat) (s : Store) (t : Nat) (work : Stored TreeChange) (change : Change) : Prop :=
  ∃ s', work s = some (⟨change.outcome.map Option.isSome, change.notices⟩, s') ∧ Kept base s s' ∧
    ∀ q, change.outcome = .ok (some q) → Held base s' t q

/-- A node gets new labels, if it is there. -/
theorem Held.renameNode (h : Held base s t p) (new : NewLabels) {changed : Option Branch}
    (hchanged : new.nodeId.text?.bind (p.root.renameAt · new.labels) = changed) :
    ∃ s', Stored.renameNode t new s = some (changed.isSome, s') ∧ Kept base s s' ∧
      Held base s' t { p with root := changed.getD p.root } := by
  subst hchanged
  unfold Stored.renameNode
  cases new.nodeId.text? with
  | none => exact ⟨s, rfl, .refl .., h⟩
  | some id =>
  have hheld := h
  obtain ⟨i, links, h⟩ := h
  dsimp only
  rw [Option.bind_some]
  rcases h.firstNode_cases (isNode id) (·.hasId id) fun hpart => hpart.hasId id with
    ⟨hfirst, hnone⟩ | ⟨top, m, l, r, e, left, right, hfirst, hfound, hin⟩
  · have hrename : p.root.renameAt id new.labels = none := updateFirst?_eq_none hnone
    rw [Stored.bind_of_eq hfirst, hrename]
    exact ⟨s, rfl, .refl .., hheld⟩
  rw [Stored.bind_of_eq hfirst]
  dsimp only
  have hwhole := hin.holds h.root
  cases hin.holds h.root with
  | node htop hm hl hr =>
    obtain ⟨hrenamed, hchange⟩ := hwhole.write_top hin.once
      { e with labels := new.labels.map some } rfl hl hr fun q => Nat.le_refl _
    obtain ⟨b', hupdate, hkept, hheld⟩ := h.replace hin hrenamed rfl hchange
    have hrename : p.root.renameAt id new.labels = some b' := hupdate _ rfl
    rw [Stored.bind_of_eq (Stored.node_of_eq htop), hrename]
    exact ⟨_, rfl, hkept, hheld⟩

/-- Nodes get new labels one after the other. -/
theorem Held.renameAll (h : Held base s t p) (news : List NewLabels) :
    ∃ s', Stored.renameAll t news s =
        some (((p.root.renameAll news).1.isSome, (p.root.renameAll news).2), s') ∧
      Kept base s s' ∧ Held base s' t { p with root := (p.root.renameAll news).1.getD p.root } := by
  induction news generalizing s p with
  | nil => exact ⟨s, rfl, .refl .., h⟩
  | cons new rest ih =>
    unfold Stored.renameAll Branch.renameAll
    generalize hchanged : new.nodeId.text?.bind (p.root.renameAt · new.labels) = changed
    obtain ⟨s₁, hwork₁, hkept₁, hheld₁⟩ := h.renameNode new hchanged
    obtain ⟨s', hwork, hkept, hheld⟩ := ih hheld₁
    rw [Stored.bind_of_eq hwork₁, Stored.bind_of_eq hwork]
    cases changed with
    | none => exact ⟨s', rfl, hkept₁.trans hkept, hheld⟩
    | some changed => exact ⟨s', rfl, hkept₁.trans hkept, hheld⟩

/-- The nodes of a tree are made anew. -/
theorem Held.renew (h : Held base s t p) :
    ∃ s', Stored.renew t s = some ((), s') ∧ Kept base s s' ∧ Held base s' t p.withoutMeasures := by
  obtain ⟨i, links, h⟩ := h
  obtain ⟨s₁, links₁, hcopy, hfresh⟩ := makes_copy h.root
  have h₁ := h.kept hfresh.kept
  obtain ⟨hplan, hkept⟩ := h₁.write_tree p.sizes hfresh.holds hfresh.once
    fun q hq => Nat.le_trans h.base_le (hfresh.new q hq)
  refine ⟨_, ?_, (hfresh.kept.mono h.base_le).trans hkept, i, links₁, hplan⟩
  unfold Stored.renew
  rw [Stored.bind_of_eq h.linksOf, Stored.bind_of_eq hcopy,
    Stored.bind_of_eq (Stored.tree_of_eq h₁.tree)]
  rfl

theorem Held.applyPatch (h : Held base s t p) (patch : Patch) :
    Edits base s t (Stored.applyPatch t patch) (p.applyPatch patch) := by
  unfold Edits Stored.applyPatch Plan.applyPatch
  dsimp only
  by_cases hempty : (patch.toList.filter (·.labels.isEmpty)).isEmpty
  · rw [if_pos hempty, if_pos hempty]
    obtain ⟨s₁, hwork₁, hkept₁, hheld₁⟩ := h.renameAll patch.toList
    rw [Stored.bind_of_eq hwork₁]
    generalize p.root.renameAll patch.toList = all at hheld₁ ⊢
    obtain ⟨root, notices⟩ := all
    cases root with
    | none => exact ⟨s₁, rfl, hkept₁, fun q hq => by cases hq⟩
    | some root =>
      obtain ⟨s₂, hwork₂, hkept₂, i, links, hplan⟩ := hheld₁.renew
      obtain ⟨s₃, hwork₃, hkept₃, hplan₃⟩ := hplan.spreadSizes
      refine ⟨s₃, ?_, hkept₁.trans (hkept₂.trans hkept₃), ?_⟩
      · show (Stored.renew t >>= _) s₁ = _
        rw [Stored.bind_of_eq hwork₂, Stored.bind_of_eq hwork₃]
        rfl
      · rintro q ⟨⟩
        exact ⟨i, links, hplan₃⟩
  · rw [if_neg hempty, if_neg hempty]
    cases (patch.toList.filter (·.labels.isEmpty)).mapM (·.nodeId.text?) with
    | none => exact ⟨s, rfl, .refl .., fun q hq => by cases hq⟩
    | some ids => exact ⟨s, rfl, .refl .., fun q hq => by cases hq⟩

/-- A patch that is given as data is carried out as it is read. -/
theorem Held.rename (h : Held base s t p) (input : PatchInput) :
    Edits base s t (Stored.rename t input) (p.rename input) := by
  cases input with
  | patch patch => exact h.applyPatch patch
  | data value =>
    cases value with
    | null => exact ⟨s, rfl, .refl .., fun q hq => by cases hq⟩
    | _ =>
      unfold Edits Stored.rename Plan.rename
      dsimp only
      generalize Patch.ofDatum _ = read
      obtain ⟨patch, notices⟩ := read
      cases patch with
      | error fault => exact ⟨s, rfl, .refl .., fun q hq => by cases hq⟩
      | ok patch =>
        obtain ⟨s', hwork, hkept, hheld⟩ := h.applyPatch patch
        refine ⟨s', ?_, hkept, hheld⟩
        dsimp only
        rw [Stored.bind_of_eq hwork]
        rfl

end Contraction.Store
