import Contraction.Proofs.Branch.Edits
import Contraction.Proofs.Branch.Shape
import Contraction.Proofs.Branch.Sweep

/-!
# The labels of a branch

What is known of every label of every node. It does not depend on marks and measures, it reaches the
labels that a node pairs, and it outlasts the edits: a node that comes to a branch has the labels of
one that is there, and only a renaming brings labels in.

* `AllLabels` — a property that all labels have
* `TensorsFrom` — a branch whose nodes have the labels and the sizes of nodes of another
-/

namespace Contraction.Branch

variable {P : Label → Prop} {b b' l r : Branch} {e : Entry} {f g : Entry → Entry}
  {id newId : String} {labels : List String}

/-! ## Entries -/

theorem bareEntries_mapEntries (hf : ∀ e, (f e).bare = g e.bare) (b : Branch) :
    (b.mapEntries f).bareEntries = b.bareEntries.map g := by
  induction b with
  | absent => rw [mapEntries, bareEntries_absent, List.map_nil]
  | node e l r ihl ihr =>
    rw [mapEntries, bareEntries_node, bareEntries_node, ihl, ihr, hf, List.map_cons,
      List.map_append]

theorem bareEntries_withoutMeasures (b : Branch) :
    b.withoutMeasures.bareEntries = b.bareEntries := by
  rw [withoutMeasures, bareEntries_mapEntries (f := Entry.withoutMeasures) (g := id) fun _ => rfl,
    List.map_id]

theorem bareEntries_congr (h : b'.withoutMeasures = b.withoutMeasures) :
    b'.bareEntries = b.bareEntries := by
  rw [← bareEntries_withoutMeasures b', h, bareEntries_withoutMeasures]

/-! ## All labels -/

/-- Every label of every node has a property. -/
def AllLabels (P : Label → Prop) (b : Branch) : Prop :=
  ∀ e ∈ b.bareEntries, ∀ label ∈ e.labels, P label

theorem allLabels_absent : absent.AllLabels P := by
  simp [AllLabels]

theorem allLabels_node : (node e l r).AllLabels P ↔
    (∀ label ∈ e.labels, P label) ∧ l.AllLabels P ∧ r.AllLabels P := by
  rw [AllLabels, bareEntries_node, List.forall_mem_cons, List.forall_mem_append]
  rfl

namespace AllLabels

theorem top (h : b.AllLabels P) : ∀ label ∈ b.labels, P label := by
  cases b with
  | absent => simp [labels]
  | node e l r => exact (allLabels_node.mp h).1

/-- The labels of every node, and all those that it pairs. -/
theorem every (h : b.AllLabels P) : b.Every fun e pair => (∀ label ∈ e.labels, P label) ∧
    ∀ o, pair = some o → ∀ label ∈ o.node ++ o.left ++ o.right, P label := by
  induction b with
  | absent => exact every_absent
  | node e l r ihl ihr =>
    obtain ⟨htop, hl, hr⟩ := allLabels_node.mp h
    refine every_node.mpr ⟨⟨htop, fun o ho label hlabel => ?_⟩, ihl hl, ihr hr⟩
    obtain ⟨-, ho⟩ := Option.ite_none_right_eq_some.mp ho
    obtain rfl := Option.some.inj ho
    rcases List.mem_append.mp hlabel with hlabel | hlabel
    · rcases List.mem_append.mp hlabel with hlabel | hlabel
      · exact htop label hlabel
      · exact hl.top label hlabel
    · exact hr.top label hlabel

end AllLabels

/-! ## Edits -/

/-- Every node of one branch has the labels and the sizes of a node of the other. -/
def TensorsFrom (b' b : Branch) : Prop :=
  ∀ e' ∈ b'.bareEntries, ∃ e ∈ b.bareEntries, e'.labels = e.labels ∧ e'.sizes = e.sizes

theorem AllLabels.of_tensorsFrom (h : b.AllLabels P) (hb : b'.TensorsFrom b) : b'.AllLabels P := by
  intro e' he' label hlabel
  obtain ⟨e, he, hlabels, -⟩ := hb e' he'
  exact h e he label (hlabels ▸ hlabel)

theorem tensorsFrom_of_subset (h : b'.bareEntries ⊆ b.bareEntries) : b'.TensorsFrom b :=
  fun e he => ⟨e, h he, rfl, rfl⟩

theorem tensorsFrom_of_withoutMeasures_eq (h : b'.withoutMeasures = b.withoutMeasures) :
    b'.TensorsFrom b :=
  tensorsFrom_of_subset fun _ he => bareEntries_congr h ▸ he

theorem swapAt_tensorsFrom (h : b.swapAt id = some b') : b'.TensorsFrom b :=
  tensorsFrom_of_subset (swapAt_bareEntries h).subset

theorem removeAt_tensorsFrom (h : b.removeAt id = some b') : b'.TensorsFrom b :=
  tensorsFrom_of_subset (removeAt_bareEntries h).subset

/-- The new node has the labels and the sizes of the one that it is put under. -/
theorem wrapAt_tensorsFrom (h : b.wrapAt id newId = some b') : b'.TensorsFrom b := by
  obtain ⟨before, after, x, hbefore, hafter⟩ := wrapAt_bareEntries h
  have hx : x ∈ b.bareEntries := by simp [hbefore]
  intro e he
  rw [hafter] at he
  simp only [List.mem_append, List.mem_cons, List.not_mem_nil, or_false] at he
  rcases he with (he | rfl | rfl) | he
  · exact ⟨e, by simp [hbefore, he], rfl, rfl⟩
  · exact ⟨_, hx, rfl, rfl⟩
  · exact ⟨x, hx, rfl, rfl⟩
  · exact ⟨e, by simp [hbefore, he], rfl, rfl⟩

/-! ## Labels that have names -/

/-- No node has a label that is missing. -/
def IsNamed (b : Branch) : Prop :=
  b.AllLabels fun label => ∃ name, label = some name

/-- The labels of an expression all have names. -/
theorem Shows.isNamed {x : Expression} (h : b.Shows x) : b.IsNamed := by
  have hmap : ∀ {e : Entry} {names : List String}, e.labels = names.map some →
      ∀ label ∈ e.labels, ∃ name, label = some name := by
    intro e names he label hlabel
    rw [he] at hlabel
    obtain ⟨name, -, rfl⟩ := List.mem_map.mp hlabel
    exact ⟨name, rfl⟩
  induction h with
  | leaf hl => exact allLabels_node.mpr ⟨hmap hl, allLabels_absent, allLabels_absent⟩
  | permutation hl ho ih => exact allLabels_node.mpr ⟨hmap hl, ih, allLabels_absent⟩
  | contraction hl hleft hright ihl ihr => exact allLabels_node.mpr ⟨hmap hl, ihl, ihr⟩

/-- New labels are names. -/
theorem IsNamed.renameAt (h : b.IsNamed) (hb : b.renameAt id labels = some b') : b'.IsNamed := by
  obtain ⟨before, after, x, hbefore, hafter⟩ := renameAt_bareEntries hb
  intro e he label hlabel
  rw [hafter] at he
  simp only [List.mem_append, List.mem_singleton] at he
  rcases he with (he | rfl) | he
  · exact h e (by simp [hbefore, he]) label hlabel
  · obtain ⟨name, -, rfl⟩ := List.mem_map.mp hlabel
    exact ⟨name, rfl⟩
  · exact h e (by simp [hbefore, he]) label hlabel

theorem exists_names {labels : List Label} (h : ∀ label ∈ labels, ∃ name, label = some name) :
    ∃ names : List String, labels = names.map some := by
  induction labels with
  | nil => exact ⟨[], rfl⟩
  | cons label labels ih =>
    obtain ⟨⟨name, rfl⟩, hrest⟩ := List.forall_mem_cons.mp h
    obtain ⟨names, rfl⟩ := ih hrest
    exact ⟨name :: names, rfl⟩

/-- Where no label is missing and no right child stands alone, there is an expression. -/
theorem IsNamed.exists_expression (h : b.IsNamed) (hleft : b.LeftFirst) (hb : b ≠ absent) :
    ∃ x, b.expression = .ok x := by
  induction b with
  | absent => exact absurd rfl hb
  | node e l r ihl ihr =>
    obtain ⟨htop, hl, hr⟩ := allLabels_node.mp h
    obtain ⟨hshape, hleftl, hleftr⟩ := leftFirst_node.mp hleft
    obtain ⟨names, hlabels⟩ := exists_names htop
    have hnames := Entry.names_of_labels hlabels
    cases l with
    | absent =>
      obtain rfl := hshape rfl
      exact ⟨.leaf names, by rw [expression, hnames]; rfl⟩
    | node el ll lr =>
      obtain ⟨x, hx⟩ := ihl hl hleftl (by simp)
      cases r with
      | absent => exact ⟨.permutation x names, by simp only [expression, hx, hnames]; rfl⟩
      | node er rl rr =>
        obtain ⟨y, hy⟩ := ihr hr hleftr (by simp)
        exact ⟨.contraction x y names, by simp only [expression, hx, hy, hnames]; rfl⟩

end Contraction.Branch
