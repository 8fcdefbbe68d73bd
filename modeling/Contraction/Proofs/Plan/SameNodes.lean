import Contraction.Proofs.Branch.Unsized
import Contraction.Proofs.Plan.Completion

/-!
# Plans with the same nodes

Two plans may have the same nodes and differ in the sizes of their labels. Entering sizes leaves the
nodes alone and depends on nothing but what is entered (`get?_withSizes`). An edit does the same to
both plans: it applies to both or to none, the nodes are the same again, and labels that have come
new get the same sizes in both (`SameOutcome`). As a sized plan lists at its nodes what the table
says, its nodes are then decided by these and the table (`IsSized.withoutMeasures_eq`).
-/

namespace Contraction

namespace Branch

theorem unsized_mapEntries {f : Entry → Entry} (hf : ∀ e, (f e).unsized = e.unsized) (b : Branch) :
    (b.mapEntries f).unsized = b.unsized := by
  unfold unsized
  rw [mapEntries_mapEntries, funext hf]

theorem unsized_withoutMeasures (b : Branch) : b.withoutMeasures.unsized = b.unsized :=
  unsized_mapEntries (f := Entry.withoutMeasures) (fun _ => rfl) b

end Branch

namespace Plan

variable {p p' q q' : Plan} {id : String} {given : Table Datum} {patch : Patch}
  {input : PatchInput} {x y : Option Plan} {default : Int} {e : Entry}

/-- The plans have the same nodes, whatever sizes and measures these have, and the same ids to
come. -/
structure SameNodes (p q : Plan) : Prop where
  root : p.root.unsized = q.root.unsized
  ids : p.ids = q.ids

namespace SameNodes

theorem symm (h : p.SameNodes q) : q.SameNodes p :=
  ⟨h.root.symm, h.ids.symm⟩

theorem trans {s : Plan} (h : p.SameNodes q) (h' : q.SameNodes s) : p.SameNodes s :=
  ⟨h.root.trans h'.root, h.ids.trans h'.ids⟩

theorem labels_eq (h : p.SameNodes q) : p.labels = q.labels := by
  have hlabels (b : Branch) :
      b.preorder.flatMap Branch.labels = b.unsized.preorder.flatMap Branch.labels := by
    rw [Branch.preorder_unsized, List.flatMap_map]
    simp only [Branch.labels_unsized]
  rw [labels, labels, hlabels p.root, hlabels q.root, h.root]

end SameNodes

theorem sameNodes_withoutMeasures (p : Plan) : p.withoutMeasures.SameNodes p :=
  ⟨p.root.unsized_withoutMeasures, rfl⟩

theorem sameNodes_spreadSizes (p : Plan) : p.spreadSizes.SameNodes p :=
  ⟨Branch.unsized_mapEntries (f := p.spreadEntry) (fun _ => rfl) p.root, rfl⟩

/-! ## Entering sizes -/

theorem sameNodes_withSizes (p : Plan) (checked : List (String × Int)) :
    (p.withSizes checked).SameNodes p :=
  (sameNodes_spreadSizes _).trans ⟨rfl, rfl⟩

theorem get?_withSizes (p : Plan) (checked : List (String × Int)) (key : String) :
    (p.withSizes checked).sizes.get? key =
      ((Table.ofPairs checked).get? key).or (p.sizes.get? key) :=
  Table.get?_insertAll_eq p.sizes checked key

/-- Where no sizes are given, a label has the one in the table or else the default. -/
theorem sizeFor_empty (p : Plan) (default : Int) (key : String) :
    p.sizeFor .empty (.int default) (some key) = .ok ((p.sizes.get? key).getD default) := by
  have hknown : p.sizeOf? (some key) = p.sizes.get? key := rfl
  have hgiven : (some key : Label).bind (Table.empty : Table Datum).get? = none := rfl
  simp only [sizeFor, hknown, hgiven]
  cases p.sizes.get? key <;> rfl

/-- A plan that gets a size for each of its labels keeps its nodes and the sizes that it has; a
label without one gets the default. -/
theorem setCompleteSizes_default (hnamed : p.root.IsNamed)
    (h : p.setCompleteSizes .empty (.int default) = .ok p') : p'.SameNodes p ∧
      ∀ key, p'.sizes.get? key =
        (p.sizes.get? key).or (if some key ∈ p.labels then some default else none) := by
  obtain ⟨sizes, hsizes, h⟩ := except_bind_eq_ok.mp h
  obtain ⟨checked, hchecked, rfl⟩ := setSizes_eq_ok h
  obtain ⟨hto, hfrom⟩ := mem_of_mapM_eq_ok hchecked
  refine ⟨sameNodes_withSizes p checked, fun key => ?_⟩
  have hsize := p.sizeFor_empty default key
  have hentry := mem_completedTable hnamed hsizes key
  rw [get?_withSizes]
  rcases Table.get?_insertAll .empty checked key with ⟨n, hmem, hget⟩ | ⟨hnone, hget⟩
  · obtain ⟨⟨other, value⟩, hvalue, heq⟩ := hfrom _ hmem
    obtain ⟨m, hm, heq⟩ := except_bind_eq_ok.mp heq
    obtain ⟨rfl, rfl⟩ := Prod.mk.inj (Except.ok.inj heq)
    obtain ⟨hlabel, k, rfl, hk⟩ := (hentry value).mp hvalue
    obtain rfl : k = m := eq_of_beq (sizeFrom_eq_ok.mp hm).2
    obtain rfl : _ = k := Except.ok.inj (hsize.symm.trans hk)
    rw [Table.ofPairs, hget, if_pos hlabel]
    cases p.sizes.get? other <;> rfl
  · have hlabel : some key ∉ p.labels := by
      intro hlabel
      obtain ⟨⟨other, m⟩, hmem, heq⟩ := hto _ ((hentry _).mpr ⟨hlabel, _, rfl, hsize⟩)
      obtain ⟨k, -, heq⟩ := except_bind_eq_ok.mp heq
      obtain ⟨rfl, rfl⟩ := Prod.mk.inj (Except.ok.inj heq)
      exact hnone _ hmem
    rw [Table.ofPairs, hget, if_neg hlabel, Option.or_none]
    rfl

/-! ## Nodes and table -/

/-- A node that lists the sizes of its labels carries what the table says. -/
theorem spreadEntry_unsized (h : p.Lists e.bare) :
    p.spreadEntry e.unsized = e.withoutMeasures := by
  obtain ⟨sizes, hsizes, hlabels⟩ := h
  have hof : p.sizesOf e.labels = sizes := by
    have hmap : p.sizesOf e.labels =
        (e.labels.map p.sizeOf?).map fun size => size.getD defaultIndexSize := by
      rw [List.map_map]
      rfl
    rw [hmap, show e.labels.map p.sizeOf? = _ from hlabels, List.map_map]
    exact List.map_id sizes
  have hlisted : e.sizes = some ((p.sizesOf e.labels).map .int) := by
    rw [hof]
    exact hsizes
  show ({ e.withoutMeasures with sizes := some ((p.sizesOf e.labels).map .int) } : Entry) = _
  rw [← hlisted]
  rfl

/-- The nodes of a sized plan are decided by its table, but for their measures. -/
theorem IsSized.withoutMeasures_eq (h : p.IsSized) :
    p.root.withoutMeasures = p.root.unsized.mapEntries p.spreadEntry := by
  have hlists := h.lists
  generalize p.root = b at hlists
  induction b with
  | absent => rfl
  | node e l r ihl ihr =>
    rw [Branch.bareEntries_node, List.forall_mem_cons, List.forall_mem_append] at hlists
    obtain ⟨htop, hl, hr⟩ := hlists
    rw [Branch.unsized_node, Branch.mapEntries, spreadEntry_unsized htop, ← ihl hl, ← ihr hr]
    rfl

theorem spreadEntry_congr (h : ∀ key, p.sizes.get? key = q.sizes.get? key) :
    p.spreadEntry = q.spreadEntry := by
  have hsize : p.sizeOf? = q.sizeOf? := by
    funext label
    rw [sizeOf?, sizeOf?, funext h]
  funext e
  rw [spreadEntry, spreadEntry, sizesOf, sizesOf, hsize]

/-! ## Edits -/

/-- What an edit makes of plans with the same nodes: it applies to neither, or it gives plans with
the same nodes, in which labels that had no size have been given the same ones. -/
inductive SameOutcome (p q : Plan) : Option Plan → Option Plan → Prop where
  | refused : SameOutcome p q none none
  | applied {p' q' : Plan} (nodes : p'.SameNodes q') (added : String → Option Int)
      (left : ∀ key, p'.sizes.get? key = (p.sizes.get? key).or (added key))
      (right : ∀ key, q'.sizes.get? key = (q.sizes.get? key).or (added key)) :
      SameOutcome p q (some p') (some q')

/-- An edit of the nodes leaves the tables alone. -/
theorem sameOutcome_of_roots {b c : Option Branch} {f g : Branch → Plan}
    (hroots : b.map Branch.unsized = c.map Branch.unsized)
    (hnodes : ∀ b c, b.unsized = c.unsized → (f b).SameNodes (g c))
    (hf : ∀ b, (f b).sizes = p.sizes) (hg : ∀ c, (g c).sizes = q.sizes) :
    SameOutcome p q (b.map f) (c.map g) := by
  cases b with
  | none =>
    cases c with
    | none => exact .refused
    | some c => cases hroots
  | some b =>
    cases c with
    | none => cases hroots
    | some c =>
      refine .applied (hnodes b c (Option.some.inj hroots)) (fun _ => none) (fun key => ?_)
        fun key => ?_
      · rw [hf, Option.or_none]
      · rw [hg, Option.or_none]

namespace SameNodes

theorem swapAt (h : p.SameNodes q) (id : String) :
    SameOutcome p q (p.swapAt id) (q.swapAt id) := by
  refine sameOutcome_of_roots ?_ (fun _ _ hroot => ⟨hroot, h.ids⟩) (fun _ => rfl) fun _ => rfl
  rw [← Branch.swapAt_unsized, ← Branch.swapAt_unsized, h.root]

theorem removeAt (h : p.SameNodes q) (id : String) :
    SameOutcome p q (p.removeAt id) (q.removeAt id) := by
  refine sameOutcome_of_roots ?_ (fun _ _ hroot => ⟨hroot, h.ids⟩) (fun _ => rfl) fun _ => rfl
  rw [← Branch.removeAt_unsized, ← Branch.removeAt_unsized, h.root]

theorem wrapAt (h : p.SameNodes q) (hp : p.wrapAt id = .ok x) (hq : q.wrapAt id = .ok y) :
    SameOutcome p q x y := by
  rw [wrapAt_outcome hp, wrapAt_outcome hq]
  refine sameOutcome_of_roots ?_ (fun _ _ hroot => ⟨hroot, ?_⟩) (fun _ => rfl) fun _ => rfl
  · rw [← Branch.wrapAt_unsized, ← Branch.wrapAt_unsized, h.root, h.ids]
  · rw [h.ids]

theorem applyPatch (h : p.SameNodes q) (hp : (p.applyPatch patch).outcome = .ok x)
    (hq : (q.applyPatch patch).outcome = .ok y) : SameOutcome p q x y := by
  rw [Plan.applyPatch] at hp hq
  dsimp only at hp hq
  split at hp
  · next hlabels =>
    rw [if_pos hlabels] at hq
    rw [← Except.ok.inj hp, ← Except.ok.inj hq]
    refine sameOutcome_of_roots ?_ (fun b c hroot => ?_) (fun _ => rfl) fun _ => rfl
    · rw [← Branch.renameAll_unsized, ← Branch.renameAll_unsized, h.root]
    · have hbare : b.withoutMeasures.unsized = c.withoutMeasures.unsized := by
        rw [b.unsized_withoutMeasures, c.unsized_withoutMeasures, hroot]
      have hmiddle : SameNodes { p with root := b.withoutMeasures }
          { q with root := c.withoutMeasures } := ⟨hbare, h.ids⟩
      exact ((sameNodes_spreadSizes _).trans hmiddle).trans (sameNodes_spreadSizes _).symm
  · next hlabels =>
    rw [if_neg hlabels] at hq
    split at hp
    · cases hp
    · next hids =>
      rw [hids] at hq
      rw [← Except.ok.inj hp, ← Except.ok.inj hq]
      exact .refused

theorem rename (h : p.SameNodes q) (hp : (p.rename input).outcome = .ok x)
    (hq : (q.rename input).outcome = .ok y) : SameOutcome p q x y := by
  rcases rename_cases hp with ⟨hnull, rfl⟩ | ⟨hgiven, patch, hpatch, hp⟩ <;>
    rcases rename_cases hq with ⟨hnull', rfl⟩ | ⟨hgiven', patch', hpatch', hq⟩
  · exact .refused
  · exact absurd hnull hgiven'
  · exact absurd hnull' hgiven
  · obtain rfl := Option.some.inj (hpatch.symm.trans hpatch')
    exact h.applyPatch hp hq

end SameNodes

end Plan

end Contraction
