import Contraction.Branch.Sweep
import Contraction.Measurement.Operations

/-!
# What a sweep does to every node

A measurement goes over a branch several times and changes measures only. `Branch.Every` says that
all nodes have a property, of what a node carries and of the labels that it pairs; the lemmas say
how a change at every node, a change at the top and a sweep carry such a property on. As long as a
change leaves all but the measures alone, a branch pairs the same labels before and after it.
-/

namespace Contraction.Branch

/-- The labels of a node with two children, and of these. -/
def paired? (b : Branch) : Option Operands :=
  if b.isContraction then some b.operands else none

/-- Every node has a property of what it carries and of the labels it pairs. -/
def Every (P : Entry → Option Operands → Prop) (b : Branch) : Prop :=
  ∀ e l r, node e l r ∈ b.postorder → P e (node e l r).paired?

variable {P Q : Entry → Option Operands → Prop} {f : Entry → Entry} {b b' l r : Branch} {e : Entry}

theorem isContraction_node (e : Entry) (l r : Branch) :
    (node e l r).isContraction = !(l.isAbsent || r.isAbsent) := by
  cases l <;> cases r <;> rfl

theorem paired?_of_isContraction (h : b.isContraction) : b.paired? = some b.operands :=
  if_pos h

theorem paired?_of_not_isContraction (h : ¬b.isContraction) : b.paired? = none :=
  if_neg h

/-! ## Changes that leave the labels alone -/

theorem isContraction_mapEntries (f : Entry → Entry) (b : Branch) :
    (b.mapEntries f).isContraction = b.isContraction := by
  rcases b with _ | ⟨e, _ | ⟨el, ll, rl⟩, _ | ⟨er, lr, rr⟩⟩ <;> rfl

theorem labels_mapEntries (hf : ∀ e, (f e).labels = e.labels) (b : Branch) :
    (b.mapEntries f).labels = b.labels := by
  cases b with
  | absent => rfl
  | node e l r => exact hf e

theorem operands_mapEntries (hf : ∀ e, (f e).labels = e.labels) (b : Branch) :
    (b.mapEntries f).operands = b.operands := by
  cases b with
  | absent => rfl
  | node e l r =>
    show Operands.mk (f e).labels (l.mapEntries f).labels (r.mapEntries f).labels = _
    rw [hf, labels_mapEntries hf, labels_mapEntries hf]
    rfl

theorem paired?_mapEntries (hf : ∀ e, (f e).labels = e.labels) (b : Branch) :
    (b.mapEntries f).paired? = b.paired? := by
  rw [paired?, paired?, isContraction_mapEntries, operands_mapEntries hf]

/-! ## All but the measures -/

@[simp] theorem id?_withoutMeasures (b : Branch) : b.withoutMeasures.id? = b.id? := by
  cases b <;> rfl

@[simp] theorem isContraction_withoutMeasures (b : Branch) :
    b.withoutMeasures.isContraction = b.isContraction :=
  isContraction_mapEntries Entry.withoutMeasures b

@[simp] theorem operands_withoutMeasures (b : Branch) :
    b.withoutMeasures.operands = b.operands :=
  operands_mapEntries (f := Entry.withoutMeasures) (fun _ => rfl) b

@[simp] theorem paired?_withoutMeasures (b : Branch) : b.withoutMeasures.paired? = b.paired? :=
  paired?_mapEntries (f := Entry.withoutMeasures) (fun _ => rfl) b

/-- Branches that differ in measures alone pair the same labels. -/
theorem paired?_congr (h : b'.withoutMeasures = b.withoutMeasures) : b'.paired? = b.paired? := by
  rw [← paired?_withoutMeasures b', h, paired?_withoutMeasures]

theorem withoutMeasures_node (e : Entry) (l r : Branch) :
    (node e l r).withoutMeasures = node e.withoutMeasures l.withoutMeasures r.withoutMeasures :=
  rfl

@[simp] theorem postorder_withoutMeasures (b : Branch) :
    b.withoutMeasures.postorder = b.postorder.map withoutMeasures := by
  induction b with
  | absent => simp [withoutMeasures, mapEntries]
  | node e l r ihl ihr => simp [withoutMeasures_node, ihl, ihr]

theorem withoutMeasures_mapEntries (hf : ∀ e, (f e).withoutMeasures = e.withoutMeasures)
    (b : Branch) : (b.mapEntries f).withoutMeasures = b.withoutMeasures := by
  induction b with
  | absent => rfl
  | node e l r ihl ihr => rw [mapEntries, withoutMeasures_node, withoutMeasures_node, hf, ihl, ihr]

@[simp] theorem withoutMeasures_withoutMeasures (b : Branch) :
    b.withoutMeasures.withoutMeasures = b.withoutMeasures :=
  withoutMeasures_mapEntries (f := Entry.withoutMeasures) (fun _ => rfl) b

theorem withoutMeasures_mapTop (hf : ∀ e, (f e).withoutMeasures = e.withoutMeasures)
    (b : Branch) : (b.mapTop f).withoutMeasures = b.withoutMeasures := by
  cases b with
  | absent => rfl
  | node e l r => rw [mapTop, withoutMeasures_node, withoutMeasures_node, hf]

/-! ## Every node -/

theorem every_absent : absent.Every P := by
  simp [Every]

theorem every_node : (node e l r).Every P ↔ P e (node e l r).paired? ∧ l.Every P ∧ r.Every P := by
  constructor
  · intro h
    exact ⟨h e l r (by simp), fun e' l' r' hn => h e' l' r' (by simp [hn]),
      fun e' l' r' hn => h e' l' r' (by simp [hn])⟩
  · rintro ⟨htop, hl, hr⟩ e' l' r' hn
    simp only [postorder_node, List.mem_append, List.mem_singleton] at hn
    rcases hn with (hn | hn) | hn
    · exact hl e' l' r' hn
    · exact hr e' l' r' hn
    · obtain ⟨rfl, rfl, rfl⟩ := node.inj hn
      exact htop

theorem Every.mapEntries (h : b.Every P) (hf : ∀ e, (f e).withoutMeasures = e.withoutMeasures)
    (hq : ∀ e pair, P e pair → Q (f e) pair) : (b.mapEntries f).Every Q := by
  induction b with
  | absent => exact every_absent
  | node e l r ihl ihr =>
    obtain ⟨htop, hl, hr⟩ := every_node.mp h
    have hpair := paired?_congr (withoutMeasures_mapEntries hf (node e l r))
    rw [Branch.mapEntries] at hpair ⊢
    refine every_node.mpr ⟨?_, ihl hl, ihr hr⟩
    rw [hpair]
    exact hq e _ htop

theorem Every.mapTop (h : b.Every P) (hf : ∀ e, (f e).withoutMeasures = e.withoutMeasures)
    (hq : ∀ e pair, P e pair → P (f e) pair) : (b.mapTop f).Every P := by
  cases b with
  | absent => exact every_absent
  | node e l r =>
    obtain ⟨htop, hl, hr⟩ := every_node.mp h
    have hpair := paired?_congr (withoutMeasures_mapTop hf (node e l r))
    rw [Branch.mapTop] at hpair ⊢
    refine every_node.mpr ⟨?_, hl, hr⟩
    rw [hpair]
    exact hq e _ htop

/-! ## Sweeps -/

variable {σ φ : Type} {visit : σ → Entry → Branch → Branch → σ × Entry × Option φ} {s s' : σ}

/-- A sweep that reaches the top has made a visit at every node, the children's before their own. -/
theorem sweep_node {e : Entry} (h : sweep visit s (node e l r) = (s', b', none)) :
    ∃ sl l' sr r' e', sweep visit s l = (sl, l', none) ∧ sweep visit sl r = (sr, r', none) ∧
      visit sr e l' r' = (s', e', none) ∧ b' = node e' l' r' := by
  rw [sweep] at h
  split at h
  · simp at h
  · next sl l' hl =>
    split at h
    · simp at h
    · next sr r' hr =>
      split at h
      next s₀ e' fault hv =>
      simp only [Prod.mk.injEq] at h
      obtain ⟨rfl, rfl, rfl⟩ := h
      exact ⟨sl, l', sr, r', e', hl, hr, hv, rfl⟩

/-- The rule for sweeps. Each visit has to turn the property of its node into another one, leave all
but the measures alone, and keep what is known of the nodes seen so far, in their order. A visit
gets the children as the sweep has left them; what has been seen are the nodes as they were. -/
theorem sweep_every {I : σ → List Branch → Prop} {seen : List Branch}
    (hvisit : ∀ {s seen e l r l' r' s' e'}, (node e l' r').paired? = (node e l r).paired? →
      P e (node e l r).paired? → I s seen → visit s e l' r' = (s', e', none) →
      e'.withoutMeasures = e.withoutMeasures ∧ Q e' (node e l r).paired? ∧
        I s' (seen ++ [node e l r]))
    (hb : b.Every P) (hs : I s seen) (h : sweep visit s b = (s', b', none)) :
    b'.withoutMeasures = b.withoutMeasures ∧ b'.Every Q ∧ I s' (seen ++ b.postorder) := by
  -- by recursion of the sweep: what the left side leaves is where the right side begins
  induction b generalizing s seen s' b' with
  | absent =>
    simp only [sweep, Prod.mk.injEq] at h
    obtain ⟨rfl, rfl, -⟩ := h
    exact ⟨rfl, every_absent, by simpa using hs⟩
  | node e l r ihl ihr =>
    obtain ⟨htop, hbl, hbr⟩ := every_node.mp hb
    obtain ⟨sl, l', sr, r', e', hl, hr, hv, rfl⟩ := sweep_node h
    obtain ⟨hwl, hql, hsl⟩ := ihl hbl hs hl
    obtain ⟨hwr, hqr, hsr⟩ := ihr hbr hsl hr
    -- the visit gets children with other measures, and they pair what they did before
    have hpair : (node e l' r').paired? = (node e l r).paired? := by
      apply paired?_congr
      rw [withoutMeasures_node, withoutMeasures_node, hwl, hwr]
    obtain ⟨hwe, hqe, hse⟩ := hvisit hpair htop hsr hv
    have hw : (node e' l' r').withoutMeasures = (node e l r).withoutMeasures := by
      rw [withoutMeasures_node, withoutMeasures_node, hwe, hwl, hwr]
    refine ⟨hw, every_node.mpr ⟨?_, hql, hqr⟩, ?_⟩
    · rw [paired?_congr hw]
      exact hqe
    · rw [postorder_node, ← List.append_assoc, ← List.append_assoc]
      exact hse

/-! ## Sweeps that may end early -/

/-- A sweep leaves all but the measures alone if its visits do, also where it ends early. -/
theorem sweep_keeps (hkeep : ∀ s e l r, (visit s e l r).2.1.withoutMeasures = e.withoutMeasures)
    (s : σ) (b : Branch) : (sweep visit s b).2.1.withoutMeasures = b.withoutMeasures := by
  induction b generalizing s with
  | absent => rfl
  | node e l r ihl ihr =>
    have hl := ihl s
    rw [sweep]
    rcases hsl : sweep visit s l with ⟨sl, l', _ | fault⟩
    · have hr := ihr sl
      rw [hsl] at hl
      dsimp only at hl ⊢
      rcases hsr : sweep visit sl r with ⟨sr, r', _ | fault⟩
      · rw [hsr] at hr
        dsimp only at hr ⊢
        rw [withoutMeasures_node, withoutMeasures_node, hkeep, hl, hr]
      · rw [hsr] at hr
        dsimp only at hr ⊢
        rw [withoutMeasures_node, withoutMeasures_node, hl, hr]
    · rw [hsl] at hl
      dsimp only at hl ⊢
      rw [withoutMeasures_node, withoutMeasures_node, hl]

/-- A visit gets children that the sweep has been to, and they pair what they did before. -/
theorem paired?_of_swept
    (hkeep : ∀ s e l r, (visit s e l r).2.1.withoutMeasures = e.withoutMeasures) {l' r' : Branch}
    {sl sr : σ} {fl fr : Option φ} (hl : sweep visit s l = (sl, l', fl))
    (hr : sweep visit s' r = (sr, r', fr)) (e : Entry) :
    (node e l' r').paired? = (node e l r).paired? := by
  have hwl := sweep_keeps hkeep s l
  have hwr := sweep_keeps hkeep s' r
  rw [hl] at hwl
  rw [hr] at hwr
  dsimp only at hwl hwr
  apply paired?_congr
  rw [withoutMeasures_node, withoutMeasures_node, hwl, hwr]

/-- Visits that agree at every node make the same sweep. -/
theorem sweep_congr {visit' : σ → Entry → Branch → Branch → σ × Entry × Option φ}
    (hkeep : ∀ s e l r, (visit s e l r).2.1.withoutMeasures = e.withoutMeasures)
    (hvisit : ∀ s e l r, P e (node e l r).paired? → visit s e l r = visit' s e l r)
    (hb : b.Every P) : sweep visit s b = sweep visit' s b := by
  induction b generalizing s with
  | absent => rfl
  | node e l r ihl ihr =>
    obtain ⟨htop, hbl, hbr⟩ := every_node.mp hb
    rw [sweep, sweep, ← ihl hbl]
    rcases hl : sweep visit s l with ⟨sl, l', _ | fault⟩
    · dsimp only
      rw [← ihr hbr]
      rcases hr : sweep visit sl r with ⟨sr, r', _ | fault⟩
      · have hpair := paired?_of_swept hkeep hl hr e
        dsimp only
        rw [hvisit sr e l' r' (hpair ▸ htop)]
      · rfl
    · rfl

/-- A sweep comes to its end if every visit does. -/
theorem sweep_completes
    (hkeep : ∀ s e l r, (visit s e l r).2.1.withoutMeasures = e.withoutMeasures)
    (hvisit : ∀ s e l r, P e (node e l r).paired? → (visit s e l r).2.2 = none)
    (hb : b.Every P) : ∃ s' b', sweep visit s b = (s', b', none) := by
  induction b generalizing s with
  | absent => exact ⟨s, absent, rfl⟩
  | node e l r ihl ihr =>
    obtain ⟨htop, hbl, hbr⟩ := every_node.mp hb
    obtain ⟨sl, l', hl⟩ := ihl (s := s) hbl
    obtain ⟨sr, r', hr⟩ := ihr (s := sl) hbr
    have hnone := hvisit sr e l' r' (paired?_of_swept hkeep hl hr e ▸ htop)
    refine ⟨(visit sr e l' r').1, node (visit sr e l' r').2.1 l' r', ?_⟩
    rw [sweep, hl]
    dsimp only
    rw [hr]
    dsimp only
    rw [← hnone]

end Contraction.Branch
