import Contraction.Proofs.Branch.Labels

/-!
# Pruning

What some nodes span of a branch can be said in two ways. `restrict` goes down the branch and puts
an expression together of what the children give. `prune` takes away the children that are not
selected with all that hangs below them, and what remains is a branch like any other, whose
expression it is (`restrict_eq`).

Nodes that pruning takes away do not matter for it (`prune_of_subset`), and where all are selected
nothing is taken away (`prune_of_forall_mem`).
-/

namespace Contraction.Branch

variable {b l r : Branch} {e : Entry} {selected fewer : List String}

/-- There is a topmost node, and it is selected. -/
def isSelected (selected : List String) (b : Branch) : Bool :=
  b.id?.any selected.contains

/-- A node with the children that are there. An only child is the left one. -/
def ofChildren (e : Entry) : Branch → Branch → Branch
  | absent, r => node e r absent
  | l, r => node e l r

/-- The branch without the children that are not selected and all that hangs below them. -/
def prune (selected : List String) : Branch → Branch
  | absent => absent
  | node e l r =>
    ofChildren e (if l.isSelected selected then l.prune selected else absent)
      (if r.isSelected selected then r.prune selected else absent)

/-- What is left of a child: nothing if it is not selected. -/
def kept (selected : List String) (b : Branch) : Branch :=
  if b.isSelected selected then b.prune selected else absent

theorem prune_node :
    (node e l r).prune selected = ofChildren e (l.kept selected) (r.kept selected) :=
  rfl

/-! ## Selected nodes -/

theorem isSelected_node : (node e l r).isSelected selected = true ↔ e.id ∈ selected := by
  show selected.contains e.id = true ↔ _
  rw [List.contains_iff_mem]

theorem isSelected_of_subset (h : fewer ⊆ selected) (hb : b.isSelected fewer = true) :
    b.isSelected selected = true := by
  cases b with
  | absent => cases hb
  | node e l r => exact isSelected_node.mpr (h (isSelected_node.mp hb))

/-- Of the nodes in pre-order the first selected one has none before it that is. -/
theorem find?_isSelected {before after : List Branch} {start : Branch}
    (hb : b.preorder = before ++ start :: after)
    (hbefore : ∀ n ∈ before, ¬n.isSelected selected = true)
    (hstart : start.isSelected selected = true) :
    b.preorder.find? (isSelected selected) = some start := by
  rw [List.find?_eq_some_iff_append]
  exact ⟨hstart, before, after, hb, fun n hn => by simpa using hbefore n hn⟩

/-! ## Nodes with their children -/

theorem ofChildren_of_left (h : l = absent → r = absent) : ofChildren e l r = node e l r := by
  cases l with
  | absent =>
    obtain rfl := h rfl
    rfl
  | node f x y => rfl

theorem entries_ofChildren : (ofChildren e l r).entries = e :: (l.entries ++ r.entries) := by
  cases l with
  | absent => rw [ofChildren, entries_node, entries_absent, List.append_nil, List.nil_append]
  | node f x y => rw [ofChildren_of_left (l := node f x y) nofun, entries_node]

theorem ids_ofChildren : (ofChildren e l r).ids = e.id :: (l.ids ++ r.ids) := by
  simp only [ids_eq_entries, entries_ofChildren, List.map_cons, List.map_append]

theorem leftFirst_ofChildren (hl : l.LeftFirst) (hr : r.LeftFirst) :
    (ofChildren e l r).LeftFirst := by
  cases l with
  | absent => exact leftFirst_node.mpr ⟨fun _ => rfl, hr, leftFirst_absent⟩
  | node f x y => exact leftFirst_node.mpr ⟨nofun, hl, hr⟩

/-- The expression of a branch, if there is a branch. -/
def expression? : Branch → Except Unwritten (Option Expression)
  | absent => .ok none
  | b => b.expression.map some

/-- The expression of a node comes of what its children give. -/
theorem expression_ofChildren (e : Entry) (l r : Branch) :
    (ofChildren e l r).expression.map some = (do
      let left ← l.expression?
      let right ← r.expression?
      let names ← e.names
      match left, right with
      | none, none => return some (.leaf names)
      | some operand, none | none, some operand => return some (.permutation operand names)
      | some left, some right => return some (.contraction left right names)) := by
  cases l with
  | absent =>
    cases r with
    | absent =>
      simp only [ofChildren, expression, expression?]
      cases e.names <;> rfl
    | node f x y =>
      simp only [ofChildren, expression, expression?]
      cases (node f x y).expression <;> cases e.names <;> rfl
  | node g v w =>
    cases r with
    | absent =>
      simp only [ofChildren, expression, expression?]
      cases (node g v w).expression <;> cases e.names <;> rfl
    | node f x y =>
      simp only [ofChildren, expression, expression?]
      cases (node g v w).expression <;> cases (node f x y).expression <;> cases e.names <;> rfl

/-! ## What pruning leaves -/

theorem exists_prune_node (selected : List String) (e : Entry) (l r : Branch) :
    ∃ x y, (node e l r).prune selected = node e x y := by
  rw [prune_node]
  cases l.kept selected with
  | absent => exact ⟨_, _, rfl⟩
  | node f x y => exact ⟨_, _, rfl⟩

theorem expression?_prune_node :
    ((node e l r).prune selected).expression? =
      ((node e l r).prune selected).expression.map some := by
  obtain ⟨x, y, hnode⟩ := exists_prune_node selected e l r
  rw [hnode]
  rfl

/-- What holds of nothing and of a pruned child holds of what is left of the child. -/
theorem kept_of {P : Branch → Prop} (habsent : P absent) (hprune : P (b.prune selected)) :
    P (b.kept selected) := by
  rw [kept]
  split
  · exact hprune
  · exact habsent

/-- A selected branch is restricted to the expression of what pruning leaves of it. -/
theorem restrict_eq (selected : List String) (b : Branch) :
    b.restrict selected = (b.kept selected).expression? := by
  induction b with
  | absent => rfl
  | node e l r ihl ihr =>
    rw [restrict, kept]
    by_cases h : selected.contains e.id = true
    · have hnode : (node e l r).isSelected selected = true := h
      rw [if_pos h, if_pos hnode, ihl, ihr, expression?_prune_node]
      exact (expression_ofChildren e (l.kept selected) (r.kept selected)).symm
    · have hnode : ¬(node e l r).isSelected selected = true := h
      rw [if_neg h, if_neg hnode]
      rfl

/-- Nothing is spanned where no node is selected, and else what is left of the first that is. -/
theorem spanned_of_find? {first : Option Branch}
    (h : b.preorder.find? (isSelected selected) = first) :
    b.spanned selected = (first.elim absent (prune selected)).expression? := by
  have hfind : b.preorder.find? (fun n => n.id?.any selected.contains) = first := h
  rw [spanned, hfind]
  cases first with
  | none => rfl
  | some n =>
    have hn := List.find?_some h
    show n.restrict selected = (n.prune selected).expression?
    rw [restrict_eq, kept, if_pos hn]

/-- The nodes that are left are nodes of the branch, in their order. -/
theorem entries_prune_sublist (selected : List String) (b : Branch) :
    (b.prune selected).entries.Sublist b.entries := by
  induction b with
  | absent => exact List.Sublist.refl _
  | node e l r ihl ihr =>
    have hnothing : ∀ c : Branch, absent.entries.Sublist c.entries := fun c =>
      entries_absent ▸ List.nil_sublist _
    have hl := kept_of (P := fun c => c.entries.Sublist l.entries) (hnothing l) ihl
    have hr := kept_of (P := fun c => c.entries.Sublist r.entries) (hnothing r) ihr
    rw [prune_node, entries_ofChildren, entries_node]
    exact (hl.append hr).cons_cons e

theorem AllLabels.prune {P : Label → Prop} (h : b.AllLabels P) :
    (b.prune selected).AllLabels P := by
  refine h.of_tensorsFrom (tensorsFrom_of_subset ?_)
  rw [bareEntries_eq_entries, bareEntries_eq_entries]
  exact ((entries_prune_sublist selected b).map Entry.bare).subset

theorem leftFirst_prune (selected : List String) (b : Branch) : (b.prune selected).LeftFirst := by
  induction b with
  | absent => exact leftFirst_absent
  | node e l r ihl ihr =>
    rw [prune_node]
    exact leftFirst_ofChildren (kept_of leftFirst_absent ihl) (kept_of leftFirst_absent ihr)

/-! ## Which nodes matter -/

/-- Where all nodes are selected nothing is taken away. -/
theorem prune_of_forall_mem (hb : b.LeftFirst) (h : ∀ id ∈ b.ids, id ∈ selected) :
    b.prune selected = b := by
  induction b with
  | absent => rfl
  | node e l r ihl ihr =>
    obtain ⟨htop, hbl, hbr⟩ := leftFirst_node.mp hb
    simp only [ids_node, List.forall_mem_cons, List.forall_mem_append] at h
    have hkept : ∀ {c : Branch}, (∀ id ∈ c.ids, id ∈ selected) → c.prune selected = c →
        c.kept selected = c := by
      intro c hc hprune
      cases c with
      | absent => rfl
      | node f x y => rw [kept, if_pos (isSelected_node.mpr (hc f.id (by simp))), hprune]
    rw [prune_node, hkept h.2.1 (ihl hbl h.2.1), hkept h.2.2 (ihr hbr h.2.2),
      ofChildren_of_left htop]

/-- It makes no difference whether nodes are selected that are taken away all the same. -/
theorem prune_of_subset (hkept : (b.prune selected).ids ⊆ fewer) (hfewer : fewer ⊆ selected) :
    b.prune fewer = b.prune selected := by
  induction b with
  | absent => rfl
  | node e l r ihl ihr =>
    have hchild : ∀ {c : Branch}, (c.kept selected).ids ⊆ fewer →
        ((c.prune selected).ids ⊆ fewer → c.prune fewer = c.prune selected) →
        c.kept fewer = c.kept selected := by
      intro c hids ih
      rw [kept] at hids
      rw [kept, kept]
      by_cases hc : c.isSelected selected = true
      · rw [if_pos hc] at hids ⊢
        cases c with
        | absent => rfl
        | node f x y =>
          -- a child that is left has its id among those that are left
          obtain ⟨v, w, hnode⟩ := exists_prune_node selected f x y
          have hid : f.id ∈ fewer := hids (by simp [hnode])
          rw [if_pos (isSelected_node.mpr hid), ih hids]
      · rw [if_neg hc, if_neg fun hless => hc (isSelected_of_subset hfewer hless)]
    rw [prune_node, ids_ofChildren] at hkept
    obtain ⟨-, hboth⟩ := List.cons_subset.mp hkept
    obtain ⟨hl, hr⟩ := List.append_subset.mp hboth
    rw [prune_node, prune_node, hchild hl ihl, hchild hr ihr]

end Contraction.Branch
