import Contraction.Dimensions.Placing

/-!
# Kinds of labels

What makes three lists of labels a contraction, and which kind each label then has, said by
membership alone and without the order of the lists. Beside it stand the laws of the buckets that
the placing of labels needs: what entering a label does to them, and what `kind?` finds in them.
-/

namespace Contraction

/-- The label is there and it is not empty. -/
def Label.IsNamed : Label → Prop
  | none => False
  | some name => name ≠ ""

instance (label : Label) : Decidable label.IsNamed :=
  match label with
  | none => inferInstanceAs (Decidable False)
  | some name => inferInstanceAs (Decidable (name ≠ ""))

theorem Label.IsNamed.exists_name {label : Label} (h : label.IsNamed) :
    ∃ name, label = some name ∧ name ≠ "" := by
  cases label with
  | none => exact absurd h id
  | some name => exact ⟨name, rfl, h⟩

namespace Operands

/-- A label has a kind by which of the three lists it is in. -/
def HasKind (o : Operands) : Kind → Label → Prop
  | .c, label => label ∈ o.node ∧ label ∈ o.left ∧ label ∈ o.right
  | .m, label => label ∈ o.node ∧ label ∈ o.left ∧ label ∉ o.right
  | .n, label => label ∈ o.node ∧ label ∉ o.left ∧ label ∈ o.right
  | .k, label => label ∉ o.node ∧ label ∈ o.left ∧ label ∈ o.right

instance (o : Operands) (kind : Kind) (label : Label) : Decidable (o.HasKind kind label) :=
  match kind with
  | .c => inferInstanceAs (Decidable (_ ∧ _ ∧ _))
  | .m => inferInstanceAs (Decidable (_ ∧ _ ∧ _))
  | .n => inferInstanceAs (Decidable (_ ∧ _ ∧ _))
  | .k => inferInstanceAs (Decidable (_ ∧ _ ∧ _))

/-- The labels of the node make a list of dimensions: none comes twice, each has a name and is in
an operand. -/
structure NodeCovered (o : Operands) : Prop where
  nodup : o.node.Nodup
  named : ∀ label ∈ o.node, label.IsNamed
  covered : ∀ label ∈ o.node, label ∈ o.left ∨ label ∈ o.right

/-- The labels are those of a contraction: the node has no label twice, every label has a name, the
labels of the node come from the operands, and what is not in the node is in both operands. -/
structure IsContraction (o : Operands) : Prop where
  nodup : o.node.Nodup
  named : ∀ label ∈ o.node ++ o.left ++ o.right, label.IsNamed
  covered : ∀ label ∈ o.node, label ∈ o.left ∨ label ∈ o.right
  summed : ∀ label ∈ o.left ++ o.right, label ∉ o.node → label ∈ o.left ∧ label ∈ o.right

theorem isContraction_iff {o : Operands} :
    o.IsContraction ↔ o.node.Nodup ∧ (∀ label ∈ o.node ++ o.left ++ o.right, label.IsNamed) ∧
      (∀ label ∈ o.node, label ∈ o.left ∨ label ∈ o.right) ∧
      ∀ label ∈ o.left ++ o.right, label ∉ o.node → label ∈ o.left ∧ label ∈ o.right :=
  ⟨fun h => ⟨h.nodup, h.named, h.covered, h.summed⟩, fun ⟨h1, h2, h3, h4⟩ => ⟨h1, h2, h3, h4⟩⟩

instance (o : Operands) : Decidable o.IsContraction :=
  decidable_of_iff _ isContraction_iff.symm

theorem IsContraction.nodeCovered {o : Operands} (h : o.IsContraction) : o.NodeCovered where
  nodup := h.nodup
  named := fun label hl => h.named label (by simp [hl])
  covered := h.covered

/-- A label has at most one kind. -/
theorem HasKind.unique {o : Operands} {kind other : Kind} {label : Label}
    (h : o.HasKind kind label) (h' : o.HasKind other label) : kind = other := by
  cases kind <;> cases other <;> simp_all [HasKind]

/-- In a contraction every label of the three lists has a kind. -/
theorem IsContraction.exists_hasKind {o : Operands} (h : o.IsContraction) {label : Label} :
    (∃ kind, o.HasKind kind label) ↔ label ∈ o.node ++ o.left ++ o.right := by
  constructor
  · rintro ⟨kind, hk⟩
    cases kind <;> simp_all [HasKind]
  · intro hl
    have hc := h.covered label
    have hs := h.summed label
    by_cases hn : label ∈ o.node
    · by_cases hL : label ∈ o.left
      · by_cases hR : label ∈ o.right
        · exact ⟨.c, hn, hL, hR⟩
        · exact ⟨.m, hn, hL, hR⟩
      · exact ⟨.n, hn, hL, (hc hn).resolve_left hL⟩
    · exact ⟨.k, hn, hs (by simpa [hn] using hl) hn⟩

end Operands

/-! ## Buckets -/

theorem Buckets.labels_push (b : Buckets) (kind : Kind) (label : String) :
    (b.push kind label).labels.Perm (label :: b.labels) := by
  cases kind with
  | c => exact .refl _
  | m =>
    simp only [push, labels, List.append_assoc]
    exact List.perm_middle
  | n =>
    simp only [push, labels, List.append_assoc]
    rw [← List.append_assoc b.c b.m, ← List.append_assoc b.c b.m]
    exact List.perm_middle
  | k => exact List.perm_middle

namespace Dimensions

/-- The buckets list exactly the names of a family, each under its kind and once in all. -/
structure Lists (d : Dimensions) (family : Kind → String → Prop) : Prop where
  mem_ofKind : ∀ kind name, name ∈ d.ofKind kind ↔ family kind name
  nodup : d.labels.Nodup

variable {d d' : Dimensions} {family other : Kind → String → Prop} {part : Part} {kind : Kind}
  {label : Label} {name : String}

theorem labels_push (d : Dimensions) (part : Part) (kind : Kind) (name : String) :
    (d.push part kind name).labels.Perm (name :: d.labels) := by
  cases part with
  | primitive => exact (Buckets.labels_push d.primitive kind name).append_right d.loop.labels
  | loop =>
    exact ((Buckets.labels_push d.loop kind name).append_left d.primitive.labels).trans
      List.perm_middle

theorem mem_ofKind_push {place : Kind} {x : String} :
    x ∈ (d.push part kind name).ofKind place ↔ (x = name ∧ place = kind) ∨ x ∈ d.ofKind place := by
  by_cases hk : kind = place
  · subst hk
    cases part <;> simp [push, ofKind, Buckets.get_push, or_left_comm]
  · cases part <;> simp [push, ofKind, Buckets.get_push, hk, Ne.symm hk]

theorem Lists.congr (h : d.Lists family) (hf : ∀ kind name, family kind name ↔ other kind name) :
    d.Lists other where
  mem_ofKind := fun kind name => (h.mem_ofKind kind name).trans (hf kind name)
  nodup := h.nodup

theorem Lists.mem_labels (h : d.Lists family) : name ∈ d.labels ↔ ∃ kind, family kind name := by
  simp only [Dimensions.mem_labels, h.mem_ofKind]

theorem Lists.push (h : d.Lists family) (hn : name ∉ d.labels) :
    (d.push part kind name).Lists fun place x => (x = name ∧ place = kind) ∨ family place x where
  mem_ofKind := fun place x => by rw [mem_ofKind_push, h.mem_ofKind]
  nodup := (labels_push d part kind name).nodup_iff.mpr (List.nodup_cons.mpr ⟨hn, h.nodup⟩)

theorem lists_empty : empty.Lists fun _ _ => False where
  mem_ofKind := fun kind name => by cases kind <;> simp [empty, ofKind, Buckets.get]
  nodup := by simp [empty, labels, Buckets.labels]

theorem enter_some (hn : name ≠ "") (hd : name ∉ d.labels) :
    d.enter part kind (some name) = .ok (d.push part kind name) := by
  simp [enter, hn, hd]

theorem enter_eq_ok (h : d.enter part kind label = .ok d') :
    ∃ name, label = some name ∧ name ≠ "" ∧ name ∉ d.labels ∧ d' = d.push part kind name := by
  unfold enter at h
  split at h
  · simp at h
  · next name =>
    split at h
    · simp at h
    · next hne =>
      split at h
      · simp at h
      · next hd =>
        simp only [Except.ok.injEq] at h
        exact ⟨name, rfl, by simpa using hne, by simpa using hd, h.symm⟩

/-- Only what has no name, or has been entered before, is refused. -/
theorem enter_eq_error {fault : ClassFault} (h : d.enter part kind label = .error fault) :
    ¬label.IsNamed ∨ ∃ name, label = some name ∧ name ∈ d.labels := by
  cases label with
  | none => exact Or.inl id
  | some name =>
    by_cases hn : name = ""
    · exact Or.inl fun hnamed => hnamed hn
    · by_cases hd : name ∈ d.labels
      · exact Or.inr ⟨name, rfl, hd⟩
      · simp [enter_some hn hd] at h

theorem kind?_mem (h : d.kind? label = some kind) :
    ∃ name, label = some name ∧ name ∈ d.ofKind kind := by
  obtain ⟨name, rfl, hf⟩ := Option.bind_eq_some_iff.mp h
  exact ⟨name, rfl, by simpa using List.find?_some hf⟩

theorem kind?_isSome : (d.kind? label).isSome ↔ ∃ name, label = some name ∧ name ∈ d.labels := by
  constructor
  · intro h
    obtain ⟨kind, hk⟩ := Option.isSome_iff_exists.mp h
    obtain ⟨name, rfl, hm⟩ := kind?_mem hk
    exact ⟨name, rfl, mem_labels.mpr ⟨kind, hm⟩⟩
  · rintro ⟨name, rfl, hm⟩
    obtain ⟨kind, hk⟩ := mem_labels.mp hm
    simp only [kind?, Option.bind_some, List.find?_isSome]
    exact ⟨kind, by cases kind <;> simp [Kind.all], by simpa using hk⟩

end Dimensions

end Contraction
