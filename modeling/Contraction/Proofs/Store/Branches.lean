import Contraction.Proofs.Plan.Steps
import Contraction.Proofs.Store.Records
import Contraction.Store.Trees

/-!
# Work on all nodes of a branch

Nodes that are made, from a value or as a copy of others, are new records throughout, those of the
measures too (`Makes`), so whatever is later written to the copy leaves the original alone. Giving
sizes and writing measures change the records of the nodes that links lead to and no others.
-/

namespace Contraction

namespace Store

variable {s s₁ s₂ : Store} {l r links : Links} {b left right : Branch}

/-- A node is made above nodes that are there, with a record for its measures before its own. -/
theorem make_of_holds (e : Entry) (hl : s.Holds l left) (hr : s.Holds r right) :
    ∃ s', Stored.make e l.top? r.top? s = some (s.size + 1, s') ∧ Kept s.size s s' ∧
      s'.Holds (.node (s.size + 1) s.size l r) (.node e left right) := by
  have hmeasures := kept_push s (.measures e.measures)
  have hnode := kept_push (s.push (.measures e.measures)) (.node (e.record l.top? r.top? s.size))
  have hkept := hmeasures.trans (hnode.mono hmeasures.size_le)
  refine ⟨_, ?_, hkept, .node ?_ ?_ (hl.kept hkept) (hr.kept hkept)⟩
  · show some ((s.push (.measures e.measures)).size, _) = _
    rw [size_push]
  · unfold node? find?
    rw [get?_push, size_push, if_pos rfl]
    rfl
  · unfold find?
    rw [get?_push, size_push, if_neg (by omega), get?_push, if_pos rfl]
    rfl

/-- All that some links lead to has been made since, and nothing else has changed. -/
structure Fresh (s s' : Store) (links : Links) (b : Branch) : Prop where
  kept : Kept s.size s s'
  holds : s'.Holds links b
  once : links.Once
  new : ∀ q, links.uses q ≠ 0 → s.size ≤ q

/-- Work makes the nodes of a branch. -/
def Makes (work : Stored (Option Ref)) (s : Store) (b : Branch) : Prop :=
  ∃ s' links, work s = some (links.top?, s') ∧ Fresh s s' links b

theorem makes_absent (s : Store) : Makes (pure none) s .absent :=
  ⟨s, .absent, rfl, .refl .., .absent, fun _ => Nat.zero_le _, fun _ hq => absurd rfl hq⟩

/-- Making a node once its sides have been made, the left one first. -/
theorem makes_node {work : Stored (Option Ref)} {e : Entry} (hl : Fresh s s₁ l left)
    (hr : Fresh s₁ s₂ r right)
    (hwork : work s = (do return some (← Stored.make e l.top? r.top?)) s₂) :
    Makes work s (.node e left right) := by
  have hsize₁ := hl.kept.size_le
  have hsize₂ := hr.kept.size_le
  have hl₂ := hl.holds.kept hr.kept
  obtain ⟨s₃, hmake, hkept, hnode⟩ := make_of_holds e hl₂ hr.holds
  rw [Stored.bind_of_eq hmake] at hwork
  refine ⟨s₃, .node (s₂.size + 1) s₂.size l r, hwork, ?_, hnode, ?_, ?_⟩
  · exact hl.kept.trans ((hr.kept.mono hsize₁).trans (hkept.mono (by omega)))
  · intro q
    have hlq := hl.once q
    have hrq := hr.once q
    rw [Links.uses_node]
    by_cases hq : q < s₂.size
    · rw [if_neg (by omega), if_neg (by omega)]
      -- what is used on the left was there before the right side was made
      by_cases hleft : l.uses q = 0
      · omega
      by_cases hright : r.uses q = 0
      · omega
      have hlt := hl.holds.lt_size hleft
      have hle := hr.new q hright
      omega
    · rw [hl₂.uses_eq_zero (by omega), hr.holds.uses_eq_zero (by omega)]
      split <;> split <;> omega
  · intro q hq
    rw [ne_eq, Links.uses_node_eq_zero] at hq
    by_cases hold : s₂.size ≤ q
    · omega
    by_cases hleft : l.uses q = 0
    · have := hr.new q fun hright => hq ⟨by omega, by omega, hleft, hright⟩
      omega
    · exact hl.new q hleft

/-- The nodes of a branch are made. -/
theorem makes_build (s : Store) (b : Branch) : Makes (Stored.build b) s b := by
  induction b generalizing s with
  | absent => exact makes_absent s
  | node e left right ihl ihr =>
    obtain ⟨s₁, l, hworkl, hl⟩ := ihl s
    obtain ⟨s₂, r, hworkr, hr⟩ := ihr s₁
    refine makes_node hl hr ?_
    unfold Stored.build
    rw [Stored.bind_of_eq hworkl, Stored.bind_of_eq hworkr]

/-- Nodes are copied, and their measures unset. -/
theorem makes_copy (h : s.Holds links b) : Makes (Stored.copy links) s b.withoutMeasures := by
  -- a side is copied after other records have been made
  suffices ∀ s', Kept s.size s s' → Makes (Stored.copy links) s' b.withoutMeasures from
    this s (.refl ..)
  induction h with
  | absent => exact fun s' _ => makes_absent s'
  | @node top m l r e left right htop hm hl hr ihl ihr =>
    intro s' hkept
    obtain ⟨s₁, l', hworkl, hl'⟩ := ihl s' hkept
    obtain ⟨s₂, r', hworkr, hr'⟩ := ihr s₁ (hkept.trans (hl'.kept.mono hkept.size_le))
    have htop' : s'.node? top = some (e.record l.top? r.top? m) := by
      obtain ⟨x, hx, -⟩ := find?_eq_some htop
      exact (find?_congr (hkept.get? top (lt_size_of_get? hx))).trans htop
    refine makes_node hl' hr' ?_
    unfold Stored.copy
    rw [Stored.bind_of_eq (Stored.node_of_eq htop'), Stored.bind_of_eq hworkl,
      Stored.bind_of_eq hworkr]
    rfl

/-- Every node gets sizes by its labels. -/
theorem spread_of_holds (p : Plan) (h : s.Holds links b) (honce : links.Once) :
    ∃ s', Stored.spread p.sizes links s = some ((), s') ∧ Changes s s' links links ∧
      s'.Holds links (b.mapEntries p.spreadEntry) := by
  induction b generalizing s links with
  | absent =>
    cases h with
    | absent => exact ⟨s, rfl, .refl .absent, .absent⟩
  | node e left right ihl ihr =>
    have hwhole := h
    cases h with
    | @node top m l r _ _ _ htop hm hl hr =>
      -- the record of the node first, then the left side, then the right
      obtain ⟨hnode₁, hchange₁⟩ := hwhole.write_top honce (p.spreadEntry e) rfl hl hr
        fun q => Nat.le_refl _
      have hrecord : (e.record l.top? r.top? m).sizedBy p.sizes =
          (p.spreadEntry e).record l.top? r.top? m := by
        rw [Plan.spreadEntry_eq]
        rfl
      have hwhole₁ := hnode₁
      cases hnode₁ with
      | node _ _ hl₁ hr₁ =>
        obtain ⟨s₂, hworkl, hchangel, hl₂⟩ := ihl hl₁ honce.left
        obtain ⟨hnode₂, hchange₂⟩ := hwhole₁.change_left honce hchangel hl₂ rfl
        have hr₂ := hchangel.holds_other hr₁ honce.disjoint
        obtain ⟨s₃, hworkr, hchanger, hr₃⟩ := ihr hr₂ honce.right
        obtain ⟨hnode₃, hchange₃⟩ := hnode₂.change_right honce hchanger hr₃ rfl
        refine ⟨s₃, ?_, (hchange₁.trans hchange₂).trans hchange₃, hnode₃⟩
        unfold Stored.spread
        rw [Stored.bind_of_eq (Stored.node_of_eq htop), Stored.write_bind, hrecord,
          Stored.bind_of_eq hworkl]
        exact hworkr

/-- The measures of a branch that has the same nodes are written. -/
theorem writeMeasures_of_holds {b' : Branch} (h : s.Holds links b) (honce : links.Once)
    (hsame : b'.withoutMeasures = b.withoutMeasures) :
    ∃ s', Stored.writeMeasures links b' s = some ((), s') ∧ Changes s s' links links ∧
      s'.Holds links b' := by
  induction b generalizing s links b' with
  | absent =>
    cases b' with
    | absent =>
      cases h with
      | absent => exact ⟨s, rfl, .refl .absent, .absent⟩
    | node => cases hsame
  | node e left right ihl ihr =>
    cases b' with
    | absent => cases hsame
    | node e' left' right' =>
      obtain ⟨hentry, hleft, hright⟩ := Branch.node.inj hsame
      have hwhole := h
      cases h with
      | @node top m l r _ _ _ htop hm hl hr =>
        obtain ⟨s₁, hworkl, hchangel, hl₁⟩ := ihl hl honce.left hleft
        obtain ⟨hnode₁, hchange₁⟩ := hwhole.change_left honce hchangel hl₁ rfl
        have hr₁ := hchangel.holds_other hr honce.disjoint
        obtain ⟨s₂, hworkr, hchanger, hr₂⟩ := ihr hr₁ honce.right hright
        obtain ⟨hnode₂, hchange₂⟩ := hnode₁.change_right honce hchanger hr₂ rfl
        obtain ⟨hnode₃, hchange₃⟩ := hnode₂.write_measures honce e'.measures
        have he : { e with measures := e'.measures } = e' := by
          cases e
          cases e'
          cases hentry
          rfl
        rw [he] at hnode₃
        refine ⟨_, ?_, (hchange₁.trans hchange₂).trans hchange₃, hnode₃⟩
        unfold Stored.writeMeasures
        rw [Stored.bind_of_eq hworkl, Stored.bind_of_eq hworkr]
        rfl

end Store

end Contraction
