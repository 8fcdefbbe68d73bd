import Contraction.Proofs.Branch.Removal
import Contraction.Proofs.Plan.Steps

/-!
# What a patch does to a plan

A patch is carried out one update after the other, and each time the node is looked for anew. Where
ids differ, all updates together come to one change of what every node carries: a node gets the
labels of the last update that names it, and keeps its own where none does (`renameAll_getD`).

A plan is checked against the whole patch before any node is changed, so a patch that takes all
labels of a node, or names no node at all, changes nothing (`rename_patch`).
-/

namespace Contraction

/-! ## Changing what every node carries -/

namespace Branch

variable {b : Branch} {f : Entry → Entry} {id : String} {change : Branch → Branch}

/-- A change at the nodes with an id does nothing where there is none. -/
theorem mapEntries_of_not_mem (h : id ∉ b.ids) :
    (b.mapEntries fun e => if e.id = id then f e else e) = b := by
  refine mapEntries_eq_self fun e he => if_neg ?_
  rintro rfl
  exact h (ids_eq_entries b ▸ List.mem_map_of_mem he)

theorem updateFirst?_of_not_mem (h : id ∉ b.ids) :
    b.updateFirst? (·.hasId id) change = none := by
  rw [← Option.not_isSome_iff_eq_none, updateFirst?_hasId_isSome]
  exact h

/-- Where ids differ, changing the first node with an id is changing all of them. -/
theorem updateFirst?_mapTop (h : b.ids.Nodup) (hid : id ∈ b.ids) :
    b.updateFirst? (·.hasId id) (mapTop f) =
      some (b.mapEntries fun e => if e.id = id then f e else e) := by
  induction b with
  | absent => simp at hid
  | node e l r ihl ihr =>
    rw [ids_node, List.nodup_cons, List.nodup_append] at h
    obtain ⟨htop, hl, hr, hdisjoint⟩ := h
    rw [List.mem_append, not_or] at htop
    rw [updateFirst?, mapEntries]
    by_cases he : e.id = id
    · subst he
      rw [if_pos (hasId_node.mpr rfl), if_pos rfl, mapEntries_of_not_mem htop.1,
        mapEntries_of_not_mem htop.2]
      rfl
    · rw [if_neg (mt hasId_node.mp he), if_neg he]
      rw [ids_node, List.mem_cons, List.mem_append] at hid
      rcases hid.resolve_left (Ne.symm he) with hid | hid
      · rw [ihl hl hid, mapEntries_of_not_mem fun hright => hdisjoint id hid id hright rfl]
      · have hleft : id ∉ l.ids := fun hleft => hdisjoint id hleft id hid rfl
        rw [updateFirst?_of_not_mem hleft, ihr hr hid, mapEntries_of_not_mem hleft]
        rfl

end Branch

/-! ## New labels -/

/-- The labels that the last of some updates for a node gives it. -/
def NewLabels.lastFor? (news : List NewLabels) (id : String) : Option (List String) :=
  (news.reverse.find? fun new => new.nodeId.text? == some id).map labels

/-- The update is for a node of the branch. -/
def NewLabels.Names (new : NewLabels) (b : Branch) : Prop :=
  ∃ id ∈ b.ids, new.nodeId = .text id

namespace Entry

variable {e : Entry} {new : NewLabels} {news : List NewLabels}

/-- What a node carries after one update. -/
def renamedBy (new : NewLabels) (e : Entry) : Entry :=
  if new.nodeId.text? = some e.id then { e with labels := new.labels.map some } else e

/-- What a node carries after several updates. -/
def renamedByAll (news : List NewLabels) (e : Entry) : Entry :=
  { e with labels := ((NewLabels.lastFor? news e.id).map (·.map some)).getD e.labels }

theorem renamedBy_id : (e.renamedBy new).id = e.id := by
  rw [renamedBy]
  split <;> rfl

theorem renamedByAll_cons :
    e.renamedByAll (new :: news) = (e.renamedBy new).renamedByAll news := by
  have hlast : NewLabels.lastFor? (new :: news) e.id = (NewLabels.lastFor? news e.id).or
      (if new.nodeId.text? = some e.id then some new.labels else none) := by
    rw [NewLabels.lastFor?, List.reverse_cons, List.find?_append, Option.map_or,
      List.find?_singleton]
    simp only [beq_iff_eq, apply_ite (Option.map NewLabels.labels), Option.map_some,
      Option.map_none]
    rfl
  rw [renamedByAll, renamedByAll, hlast, renamedBy_id, renamedBy]
  by_cases hnew : new.nodeId.text? = some e.id
  · rw [if_pos hnew, if_pos hnew]
    cases NewLabels.lastFor? news e.id <;> rfl
  · rw [if_neg hnew, if_neg hnew, Option.or_none]

end Entry

namespace Branch

variable {b : Branch}

/-! ## Renaming one node after the other -/

/-- One update is a change at every node, which does nothing but where it names the node. -/
theorem renameAt_getD (h : b.ids.Nodup) (new : NewLabels) :
    (new.nodeId.text?.bind (b.renameAt · new.labels)).getD b =
      b.mapEntries (Entry.renamedBy new) := by
  cases hid : new.nodeId.text? with
  | none => exact (mapEntries_eq_self fun e _ => if_neg (by rw [hid]; exact nofun)).symm
  | some id =>
    have hnamed : Entry.renamedBy new =
        fun e => if e.id = id then { e with labels := new.labels.map some } else e := by
      funext e
      simp only [Entry.renamedBy, hid, Option.some.injEq, eq_comm]
    rw [Option.bind_some, renameAt, hnamed]
    by_cases hmem : id ∈ b.ids
    · rw [updateFirst?_mapTop h hmem, Option.getD_some]
    · rw [updateFirst?_of_not_mem hmem, Option.getD_none, mapEntries_of_not_mem hmem]

theorem renameAt_isSome (new : NewLabels) (b : Branch) :
    (new.nodeId.text?.bind (b.renameAt · new.labels)).isSome = true ↔ new.Names b := by
  rw [NewLabels.Names]
  cases new.nodeId with
  | text id =>
    rw [Datum.text?, Option.bind_some, renameAt, updateFirst?_hasId_isSome]
    simp
  | _ => simp [Datum.text?]

theorem ids_renamedBy (b : Branch) (new : NewLabels) :
    (b.mapEntries (Entry.renamedBy new)).ids = b.ids :=
  ids_mapEntries (fun _ => Entry.renamedBy_id) b

/-- Where ids differ, several updates are one change at every node. -/
theorem renameAll_getD (h : b.ids.Nodup) (news : List NewLabels) :
    (b.renameAll news).1.getD b = b.mapEntries (Entry.renamedByAll news) := by
  induction news generalizing b with
  | nil => exact (mapEntries_eq_self fun _ _ => rfl).symm
  | cons new rest ih =>
    have hfirst := renameAt_getD h new
    have hrest := ih (b := b.mapEntries (Entry.renamedBy new)) (by rwa [ids_renamedBy])
    have hall : b.mapEntries (Entry.renamedByAll (new :: rest)) =
        (b.mapEntries (Entry.renamedBy new)).mapEntries (Entry.renamedByAll rest) := by
      rw [mapEntries_mapEntries]
      exact congrArg b.mapEntries (funext fun e => Entry.renamedByAll_cons)
    rw [hall, ← hrest, ← hfirst, renameAll]
    cases new.nodeId.text?.bind (b.renameAt · new.labels) with
    | none => rfl
    | some changed => rfl

/-- Several updates give a branch if one of them names a node. -/
theorem renameAll_isSome (news : List NewLabels) (b : Branch) :
    (b.renameAll news).1.isSome = true ↔ ∃ new ∈ news, new.Names b := by
  induction news with
  | nil => simp [renameAll]
  | cons new rest ih =>
    simp only [List.mem_cons, exists_eq_or_imp]
    rw [← renameAt_isSome, renameAll]
    cases new.nodeId.text?.bind (b.renameAt · new.labels) with
    | none => simpa using ih
    | some changed => simp

end Branch

/-! ## Patches -/

theorem NewLabels.exists_ids {news : List NewLabels}
    (h : ∀ new ∈ news, ∃ id, new.nodeId = .text id) :
    ∃ ids, news.mapM (·.nodeId.text?) = some ids := by
  induction news with
  | nil => exact ⟨[], rfl⟩
  | cons new news ih =>
    obtain ⟨⟨id, hid⟩, hrest⟩ := List.forall_mem_cons.mp h
    obtain ⟨ids, hids⟩ := ih hrest
    refine ⟨id :: ids, ?_⟩
    rw [List.mapM_cons, hids, hid]
    rfl

/-- A patch does not apply: it takes all labels of a node, or names no node that is there. -/
def Patch.Fails (patch : Patch) (b : Branch) : Prop :=
  (∃ new ∈ patch.toList, new.labels = []) ∨ ∀ new ∈ patch.toList, ¬new.Names b

/-- What a node carries after a patch, by a table of sizes. -/
def Patch.applied (patch : Patch) (sizes : Table Int) (e : Entry) : Entry :=
  let labels := ((NewLabels.lastFor? patch.toList e.id).map (·.map some)).getD e.labels
  { e with
    labels
    sizes := some ((labels.map fun label => (label.bind sizes.get?).getD 2).map .int)
    measures := .unset }

namespace Plan

variable {p : Plan} {patch : Patch}

/-- A patch is refused if it takes all labels of a node. The refusal tells the ids, so these must be
texts. -/
theorem applyPatch_of_emptied
    (hids : ∀ new ∈ patch.toList, new.labels = [] → ∃ id, new.nodeId = .text id)
    (h : ∃ new ∈ patch.toList, new.labels = []) : (p.applyPatch patch).outcome = .ok none := by
  obtain ⟨new, hnew, hlabels⟩ := h
  have hemptied : ¬(patch.toList.filter (·.labels.isEmpty)).isEmpty = true := by
    rw [List.isEmpty_iff, List.filter_eq_nil_iff]
    exact fun hnone => hnone new hnew (by rw [hlabels]; rfl)
  have hfiltered : ∀ new ∈ patch.toList.filter (·.labels.isEmpty), ∃ id, new.nodeId = .text id :=
    fun new hnew =>
      have hmem := List.mem_filter.mp hnew
      hids new hmem.1 (List.isEmpty_iff.mp hmem.2)
  obtain ⟨ids, hall⟩ := NewLabels.exists_ids hfiltered
  rw [applyPatch]
  simp only [if_neg hemptied, hall]

/-- A patch that leaves labels to all nodes is carried out one update after the other. -/
theorem applyPatch_of_kept (h : ∀ new ∈ patch.toList, new.labels ≠ []) :
    (p.applyPatch patch).outcome = .ok ((p.root.renameAll patch.toList).1.map fun root =>
      spreadSizes { p with root := root.withoutMeasures }) := by
  have hemptied : (patch.toList.filter (·.labels.isEmpty)).isEmpty = true := by
    rw [List.isEmpty_iff, List.filter_eq_nil_iff]
    exact fun new hnew hempty => h new hnew (List.isEmpty_iff.mp hempty)
  rw [applyPatch]
  simp only [if_pos hemptied]

/-- The updates of a patch, the removal of measures and the new sizes are one change at every
node. -/
theorem spreadSizes_renamed (p : Plan) (patch : Patch) :
    spreadSizes { p with
        root := (p.root.mapEntries (Entry.renamedByAll patch.toList)).withoutMeasures } =
      { p with root := p.root.mapEntries (patch.applied p.sizes) } := by
  rw [spreadSizes, Branch.withoutMeasures, Branch.mapEntries_mapEntries,
    Branch.mapEntries_mapEntries]
  rfl

/-- In a plan whose ids differ, a patch that takes all labels of a node or names no node that is
there is refused and changes nothing. Any other one changes what the nodes carry and nothing else:
each has the labels of the last update that names it, or its own if none does, with their sizes by
the table or else the default, and no measures. An update without labels has a text for its id, as
the refusal tells it. -/
theorem rename_patch (p : Plan) (patch : Patch) (h : p.root.ids.Nodup)
    (hids : ∀ new ∈ patch.toList, new.labels = [] → ∃ id, new.nodeId = .text id) :
    (patch.Fails p.root → (p.rename (.patch patch)).outcome = .ok none) ∧
    (¬patch.Fails p.root → (p.rename (.patch patch)).outcome =
      .ok (some { p with root := p.root.mapEntries (patch.applied p.sizes) })) := by
  show (_ → (p.applyPatch patch).outcome = _) ∧ (_ → (p.applyPatch patch).outcome = _)
  have hsome := Branch.renameAll_isSome patch.toList p.root
  by_cases hempty : ∃ new ∈ patch.toList, new.labels = []
  · exact ⟨fun _ => applyPatch_of_emptied hids hempty, fun hnot => absurd (Or.inl hempty) hnot⟩
  · rw [applyPatch_of_kept fun new hnew hlabels => hempty ⟨new, hnew, hlabels⟩]
    have hroot := Branch.renameAll_getD h patch.toList
    cases hrenamed : (p.root.renameAll patch.toList).1 with
    | none =>
      rw [hrenamed] at hsome
      refine ⟨fun _ => rfl, fun hnot => absurd (Or.inr fun new hnew hnames => ?_) hnot⟩
      cases hsome.mpr ⟨new, hnew, hnames⟩
    | some root =>
      rw [hrenamed] at hsome hroot
      refine ⟨fun hfails => ?_, fun _ => ?_⟩
      · obtain ⟨new, hnew, hnames⟩ := hsome.mp rfl
        exact absurd hnames (hfails.resolve_left hempty new hnew)
      · rw [Option.getD_some] at hroot
        rw [hroot, Option.map_some, spreadSizes_renamed]

/-- Of two updates for one node the last counts, and one for a node that is not there is passed
over. A patch that takes all labels of a node is refused with all that it says of others. -/
theorem rename_patch_twice :
    let x : Entry := { id := "x", labels := [some "i"], deletable := .bool true }
    let y : Entry := { id := "y", labels := [some "j"], sizes := some [.int 9] }
    let p : Plan :=
      { root := .node y (.node x .absent .absent) .absent, sizes := .ofPairs [("k", 5)] }
    let twice : Patch :=
      { root := some ⟨.text "x", ["a", "b"]⟩
        left := some ⟨.text "gone", ["c"]⟩
        right := some ⟨.text "x", ["k", "d"]⟩ }
    let emptying : Patch := { root := some ⟨.text "y", ["e"]⟩, left := some ⟨.text "x", []⟩ }
    let x' : Entry := { x with labels := [some "k", some "d"], sizes := some [.int 5, .int 2] }
    let y' : Entry := { y with sizes := some [.int 2] }
    (p.rename (.patch twice)).outcome =
        .ok (some { p with root := .node y' (.node x' .absent .absent) .absent }) ∧
      (p.rename (.patch emptying)).outcome = .ok none := by
  intro x y p twice emptying x' y'
  have hdistinct : p.root.ids.Nodup := by simp [p, x, y]
  constructor
  · have hids : ∀ new ∈ twice.toList, new.labels = [] → ∃ id, new.nodeId = .text id := by
      simp [twice, Patch.toList]
    have happlies : ¬twice.Fails p.root := by
      simp [Patch.Fails, NewLabels.Names, twice, Patch.toList, p, x, y]
    refine ((rename_patch p twice hdistinct hids).2 happlies).trans ?_
    rfl
  · have hids : ∀ new ∈ emptying.toList, new.labels = [] → ∃ id, new.nodeId = .text id := by
      simp [emptying, Patch.toList]
    have hempty : ∃ new ∈ emptying.toList, new.labels = [] := by
      simp [emptying, Patch.toList]
    exact (rename_patch p emptying hdistinct hids).1 (Or.inl hempty)

end Plan

end Contraction
