import Contraction.Proofs.Dimensions.NodeRuns
import Contraction.Proofs.Dimensions.Placement
import Mathlib.Data.List.DropRight

/-!
# Where the labels of a contraction stand

The layout on which a blocked kernel relies: which of the labels of a kind are its primitive part is
decided by the order of the lists, and the primitive part of each kind is a run.

For the labels of the node this is what the loop over the node leaves (`Scan.LaidOut`). Of those
that are summed over, the candidates are a run of the right operand, since the pointer admits them
only from the first label that is not of all three lists up to the next label of the node
(`summedCandidates_atStart`). The left operand then takes them in turn (`SummedFrom`), and so the
primitive part is an end of that run. `Operands.dimensions_layout` puts the two together.
-/

namespace Contraction

open Dimensions

/-! ## The candidates -/

namespace Pointer

/-- The pointer does not come back to the labels that are summed over. -/
theorem not_admits_passOver {p : Pointer} (h : ¬p.admits .k = true) (kind : Kind) :
    ¬(p.passOver kind).admits .k = true := by
  obtain ⟨stage, previous⟩ := p
  cases stage <;> cases previous <;> cases kind <;> revert h <;> decide

/-- A label of the node ends the labels that are summed over. -/
theorem not_admits_passOver_take {kind : Kind} (h : kind ≠ .k) :
    ¬((take .k).passOver kind).admits .k = true := by
  cases kind <;> revert h <;> decide

end Pointer

section Candidates

variable {d : Dimensions} {left labels candidates : List Label} {p : Pointer}

theorem summedCandidates_of_not_admits (hp : ¬p.admits .k = true)
    (h : summedCandidates d left p labels = .ok candidates) : candidates = [] := by
  induction labels generalizing p with
  | nil => exact (Except.ok.inj h).symm
  | cons label rest ih =>
    have hlook : ¬(p.look d label).admits .k = true := Pointer.not_admits_passOver hp _
    rw [summedCandidates] at h
    simp only [if_neg hlook] at h
    split at h
    · exact ih hlook h
    · split at h
      · cases h
      · exact ih hlook h

/-- A label that has not been placed and is admitted is a candidate. -/
theorem summedCandidates_cons_none {label : Label} {rest : List Label}
    (hk : d.kind? label = none) (hp : p.passOver .k = .take .k)
    (h : summedCandidates d left p (label :: rest) = .ok candidates) :
    ∃ others, summedCandidates d left (.take .k) rest = .ok others ∧
      candidates = label :: others := by
  have hlook : p.look d label = .take .k := by
    rw [Pointer.look, hk]
    exact hp
  rw [summedCandidates] at h
  simp only [hk, hlook, Option.isSome_none, Bool.false_eq_true, if_false] at h
  split at h
  · cases h
  · obtain ⟨others, hothers, rfl⟩ := except_map_eq_ok.mp h
    exact ⟨others, hothers, rfl⟩

/-- A label that has been placed is passed over. -/
theorem summedCandidates_cons_some {label : Label} {rest : List Label} {kind : Kind}
    (hk : d.kind? label = some kind) :
    summedCandidates d left p (label :: rest) = summedCandidates d left (p.passOver kind) rest := by
  rw [summedCandidates]
  simp only [Pointer.look, hk, Option.isSome_some, if_true, Option.getD_some]

/-- Once candidates are taken, they go on up to a label of the node. -/
theorem summedCandidates_take (hno : ∀ label ∈ labels, d.kind? label ≠ some .k)
    (h : summedCandidates d left (.take .k) labels = .ok candidates) :
    candidates = labels.takeWhile fun label => d.kind? label = none := by
  induction labels generalizing candidates with
  | nil => exact (Except.ok.inj h).symm
  | cons label rest ih =>
    obtain ⟨hlabel, hrest⟩ := List.forall_mem_cons.mp hno
    cases hk : d.kind? label with
    | none =>
      obtain ⟨others, hothers, rfl⟩ := summedCandidates_cons_none hk rfl h
      rw [List.takeWhile_cons_of_pos (by simpa using hk), ih hrest hothers]
    | some kind =>
      rw [summedCandidates_cons_some hk] at h
      have hkind : kind ≠ .k := fun heq => hlabel (heq ▸ hk)
      rw [List.takeWhile_cons_of_neg (by simp [hk])]
      exact summedCandidates_of_not_admits (Pointer.not_admits_passOver_take hkind) h

/-- From the start, the candidates are what stands behind the labels of the first kind. -/
theorem summedCandidates_atStart
    (hno : ∀ label ∈ labels, d.kind? label ≠ some .k ∧ d.kind? label ≠ some .m)
    (h : summedCandidates d left .atStart labels = .ok candidates) :
    candidates = (labels.dropWhile fun label => d.kind? label = some .c).takeWhile
      fun label => d.kind? label = none := by
  induction labels with
  | nil => exact (Except.ok.inj h).symm
  | cons label rest ih =>
    obtain ⟨hlabel, hrest⟩ := List.forall_mem_cons.mp hno
    cases hk : d.kind? label with
    | none =>
      obtain ⟨others, hothers, rfl⟩ := summedCandidates_cons_none hk rfl h
      rw [List.dropWhile_cons_of_neg (by simp [hk]), List.takeWhile_cons_of_pos (by simpa using hk),
        summedCandidates_take (fun x hx => (hrest x hx).1) hothers]
    | some kind =>
      rw [summedCandidates_cons_some hk] at h
      cases kind with
      | c =>
        rw [List.dropWhile_cons_of_pos (by simpa using hk)]
        exact ih hrest h
      | n =>
        rw [List.dropWhile_cons_of_neg (by simp [hk]), List.takeWhile_cons_of_neg (by simp [hk])]
        exact summedCandidates_of_not_admits (by decide) h
      | m => exact absurd hk hlabel.2
      | k => exact absurd hk hlabel.1

end Candidates

/-! ## The left operand -/

/-- The buckets of the node are as they were. Of the labels that are summed over, those that have
been seen stand in their order, and the primitive ones are an end of the run `whole`, in front of
which the remaining candidates stand. -/
structure SummedFrom (placed : Dimensions) (whole seen candidates : List Label) (d : Dimensions) :
    Prop where
  kept : ∀ part kind, kind ≠ .k → d.bucket part kind = placed.bucket part kind
  ordered : ∀ part, ((d.bucket part .k).map some).Sublist seen
  ends : whole = candidates.reverse ++ (d.bucket .primitive .k).map some

namespace SummedFrom

variable {placed d d' : Dimensions} {whole seen candidates labels right : List Label}
  {label : Label} {name : String} {p : Pointer}

theorem pass (h : SummedFrom placed whole seen candidates d) :
    SummedFrom placed whole (label :: seen) candidates d :=
  ⟨h.kept, fun part => (h.ordered part).cons label, h.ends⟩

theorem kept_push (h : SummedFrom placed whole seen candidates d) (part other : Part) {kind : Kind}
    (hk : kind ≠ .k) : (d.push part .k name).bucket other kind = placed.bucket other kind := by
  rw [bucket_push, if_neg fun hboth => hk hboth.2.symm, h.kept other kind hk]

theorem ordered_push (h : SummedFrom placed whole seen candidates d) (part other : Part) :
    (((d.push part .k name).bucket other .k).map some).Sublist (some name :: seen) := by
  rw [bucket_push]
  split
  · exact (h.ordered other).cons_cons _
  · exact (h.ordered other).cons _

/-- The next candidate goes in front of the primitive labels. -/
theorem takeCandidate (h : SummedFrom placed whole seen candidates d)
    (hc : candidates.head? = some (some name)) :
    SummedFrom placed whole (some name :: seen) candidates.tail (d.push .primitive .k name) where
  kept := fun other _ => h.kept_push .primitive other
  ordered := h.ordered_push .primitive
  ends := by
    obtain ⟨others, rfl⟩ := List.head?_eq_some_iff.mp hc
    rw [h.ends, bucket_push, if_pos ⟨rfl, rfl⟩]
    simp

theorem takeLoop (h : SummedFrom placed whole seen candidates d) :
    SummedFrom placed whole (some name :: seen) candidates (d.push .loop .k name) where
  kept := fun other _ => h.kept_push .loop other
  ordered := h.ordered_push .loop
  ends := by
    rw [bucket_push, if_neg (by decide)]
    exact h.ends

theorem placeSummed (h : SummedFrom placed whole seen candidates d)
    (hd : placeSummed right d p candidates labels = .ok d') :
    ∃ candidates, SummedFrom placed whole (labels.reverse ++ seen) candidates d' := by
  induction labels generalizing seen candidates d p with
  | nil => exact ⟨candidates, Except.ok.inj hd ▸ h⟩
  | cons label rest ih =>
    rw [List.reverse_cons, List.append_assoc, List.singleton_append]
    rw [Contraction.placeSummed] at hd
    split at hd
    · exact ih h.pass hd
    · split at hd
      · cases hd
      · split at hd
        · next hcandidate =>
          obtain ⟨next, henter, hd⟩ := except_bind_eq_ok.mp hd
          obtain ⟨name, rfl, -, -, rfl⟩ := enter_eq_ok henter
          simp only [Bool.and_eq_true, beq_iff_eq] at hcandidate
          exact ih (h.takeCandidate hcandidate.2) hd
        · obtain ⟨next, henter, hd⟩ := except_bind_eq_ok.mp hd
          obtain ⟨name, rfl, -, -, rfl⟩ := enter_eq_ok henter
          exact ih h.takeLoop hd

end SummedFrom

/-! ## The layout -/

/-- Where the labels of a contraction stand in its three lists, beyond what their kinds say. -/
structure Operands.Layout (o : Operands) (d : Dimensions) : Prop where
  /-- In the node the primitive labels are three runs, the last of them at its end. -/
  node_runs : ∃ front between behind, o.node = front ++ (d.bucket .primitive .n).map some ++
    between ++ (d.bucket .primitive .m).map some ++ behind ++ (d.bucket .primitive .c).map some
  common_end : o.EndIn ((d.bucket .primitive .c).map some)
  longest_end : ∀ labels, o.EndIn labels → labels <:+ (d.bucket .primitive .c).map some
  m_in_left : ((d.bucket .primitive .m).map some).Sublist o.left
  n_in_right : ((d.bucket .primitive .n).map some).Sublist o.right
  node_order : ∀ part kind, kind ≠ .k → ((d.bucket part kind).map some).Sublist o.node
  left_order : ∀ part, ((d.bucket part .k).map some).Sublist o.left
  /-- In the right operand the primitive labels that are summed over end the run of such labels that
  stands in front of the end of labels of all three lists. -/
  summed_end : (d.bucket .primitive .k).map some <:+
    (o.right.rdropWhile (o.HasKind .c)).rtakeWhile (o.HasKind .k)
  summed_run : (d.bucket .primitive .k).map some <:+: o.right

section

variable {o : Operands} {placed d : Dimensions} {candidates : List Label} {label : Label}
  {kind : Kind}

/-- The kinds of labels that were placed with the node are those of the three lists. -/
theorem PlacedUpTo.hasKind_of_kind? {seen : List Label} (h : PlacedUpTo o seen d)
    (hk : d.kind? label = some kind) : o.HasKind kind label := by
  obtain ⟨name, rfl, hm⟩ := kind?_mem hk
  exact ((h.dims.mem_ofKind kind name).mp hm).1

theorem PlacedUpTo.kind?_eq_c (h : PlacedUpTo o [] d) :
    d.kind? label = some .c ↔ o.HasKind .c label := by
  refine ⟨h.hasKind_of_kind?, fun hc => ?_⟩
  obtain ⟨kind, hk⟩ := Option.isSome_iff_exists.mp (h.isSome_of_mem_node hc.1 hc)
  rw [hk, (h.hasKind_of_kind? hk).unique hc]

/-- In a contraction, what has not been placed with the node is summed over. -/
theorem PlacedUpTo.kind?_eq_none (h : PlacedUpTo o [] d) (hc : o.IsContraction)
    (hr : label ∈ o.right) : d.kind? label = none ↔ o.HasKind .k label := by
  rw [← Option.not_isSome_iff_eq_none]
  refine ⟨fun hs => ?_, fun hk hs => hk.1 (h.mem_node_of_isSome hs)⟩
  have hno : label ∉ o.node := by
    intro hn
    obtain ⟨kind, hk⟩ := hc.exists_hasKind.mpr
      (List.mem_append_left _ (List.mem_append_left o.left hn))
    exact hs (h.isSome_of_mem_node hn hk)
  exact ⟨hno, hc.summed label (List.mem_append_right _ hr) hno⟩

theorem takeWhile_congr_left {p q : Label → Bool} {labels : List Label}
    (h : ∀ label ∈ labels, p label = q label) : labels.takeWhile p = labels.takeWhile q := by
  induction labels with
  | nil => rfl
  | cons label labels ih =>
    obtain ⟨hlabel, hlabels⟩ := List.forall_mem_cons.mp h
    rw [List.takeWhile_cons, List.takeWhile_cons, hlabel, ih hlabels]

/-- The candidates are a run of the right operand, the last of them first. -/
theorem PlacedUpTo.candidates_eq (h : PlacedUpTo o [] d) (hc : o.IsContraction)
    (hs : summedCandidates d o.left .atStart o.right.reverse = .ok candidates) :
    candidates.reverse = (o.right.rdropWhile (o.HasKind .c)).rtakeWhile (o.HasKind .k) := by
  have hno : ∀ x ∈ o.right.reverse, d.kind? x ≠ some .k ∧ d.kind? x ≠ some .m := by
    intro x hx
    constructor
    · intro hk
      exact (h.hasKind_of_kind? hk).1 (h.mem_node_of_isSome (by simp [hk]))
    · intro hm
      exact (h.hasKind_of_kind? hm).2.2 (List.mem_reverse.mp hx)
  have hfirst : (fun x => decide (d.kind? x = some .c)) = fun x => decide (o.HasKind .c x) :=
    funext fun x => decide_eq_decide.mpr h.kind?_eq_c
  rw [summedCandidates_atStart hno hs, hfirst, List.rtakeWhile, List.rdropWhile,
    List.reverse_reverse, List.reverse_inj]
  refine takeWhile_congr_left fun x hx => decide_eq_decide.mpr (h.kind?_eq_none hc ?_)
  exact List.mem_reverse.mp ((List.dropWhile_suffix _).subset hx)

/-- The placing goes through in three steps. -/
theorem Operands.dimensions_eq_ok (h : o.dimensions = .ok d) : ∃ placed candidates,
    Scan.placeNode ⟨o.node.reverse, o.left.reverse, o.right.reverse, ⟨.c, .nothing⟩, .empty⟩ =
      .ok placed ∧
    summedCandidates placed o.left .atStart o.right.reverse = .ok candidates ∧
    placeSummed o.right placed .atStart candidates o.left.reverse = .ok d := by
  unfold dimensions at h
  split at h
  · next dims hp =>
    obtain ⟨placed, hn, hp⟩ := except_bind_eq_ok.mp hp
    obtain ⟨candidates, hs, hp⟩ := except_bind_eq_ok.mp hp
    exact ⟨placed, candidates, hn, hs, Except.ok.inj h ▸ hp⟩
  · cases h

/-- When the node has been placed, no label that is summed over has been. -/
theorem bucket_k_of_placed
    (hd : d.Lists fun kind name => kind ≠ .k ∧ o.HasKind kind (some name)) (part : Part) :
    d.bucket part .k = [] := by
  refine List.eq_nil_iff_forall_not_mem.mpr fun name hm => ?_
  have hof : name ∈ d.ofKind .k := by
    cases part with
    | primitive => exact List.mem_append_left _ hm
    | loop => exact List.mem_append_right _ hm
  exact ((hd.mem_ofKind .k name).mp hof).1 rfl

theorem summedFrom_initial
    (hd : placed.Lists fun kind name => kind ≠ .k ∧ o.HasKind kind (some name)) :
    SummedFrom placed candidates.reverse [] candidates placed where
  kept := fun _ _ _ => rfl
  ordered := fun part => by simp [bucket_k_of_placed hd part]
  ends := by simp [bucket_k_of_placed hd .primitive]

end

/-- When no operand has a label twice and the labels can be placed, then those of the primitive part
stand in runs: in the node those of the second operand alone, those of the first one alone, and at
the end those of all three lists, which are the longest end that the lists have in common; in the
right operand those that are summed over, at the end of the run in front of that end. All other
labels of a kind and part are listed in the order of the node, or of the left operand. -/
theorem Operands.dimensions_layout (o : Operands) (d : Dimensions) (hl : o.left.Nodup)
    (hr : o.right.Nodup) (h : o.dimensions = .ok d) : o.Layout d := by
  obtain ⟨placed, candidates, hn, hs, hp⟩ := dimensions_eq_ok h
  obtain ⟨hcovered, hlists⟩ := (Scan.faithful_initial o _).placeNode_ok hn
  obtain ⟨t, hnode, rfl⟩ := (Scan.LaidOut.initial o).placeNode hl hr hn
  have hplaced := placedUpTo_node hcovered hlists
  obtain ⟨others, hsummed⟩ := (summedFrom_initial hlists).placeSummed hp
  have hkept : ∀ kind, kind ≠ .k → d.bucket .primitive kind = t.dims.bucket .primitive kind :=
    hsummed.kept .primitive
  have hc : d.bucket .primitive .c = t.dims.primitive.c := hkept .c (by decide)
  have hm : d.bucket .primitive .m = t.dims.primitive.m := hkept .m (by decide)
  have hk : d.bucket .primitive .n = t.dims.primitive.n := hkept .n (by decide)
  have hend : (d.bucket .primitive .k).map some <:+
      (o.right.rdropWhile (o.HasKind .c)).rtakeWhile (o.HasKind .k) := by
    rw [← hplaced.candidates_eq (dimensions_ok h).1 hs, hsummed.ends]
    exact List.suffix_append ..
  obtain ⟨front, between, behind, hruns⟩ := hnode.runs
  obtain ⟨hcommon, hlongest⟩ := hnode.longest
  exact {
    node_runs := ⟨front, between, behind, by rw [hc, hm, hk]; exact hruns.eq⟩
    common_end := hc ▸ hcommon
    longest_end := fun labels hlabels => hc ▸ hcommon.suffix hlongest hlabels
    m_in_left := hm ▸ (List.sublist_append_right ..).trans hnode.left
    n_in_right := hk ▸ (List.sublist_append_right ..).trans hnode.right
    node_order := fun part kind hkind => hsummed.kept part kind hkind ▸ hnode.ordered part kind
    left_order := fun part => by simpa using hsummed.ordered part
    summed_end := hend
    summed_run := hend.isInfix.trans
      ((List.rtakeWhile_suffix _ _).isInfix.trans (List.rdropWhile_prefix _ _).isInfix) }

/-- Of two labels that are summed over and stand apart in the second operand, only the one in front
of the common end is primitive. A label of the second operand alone is primitive although a label
that is summed over stands behind it. -/
theorem Operands.dimensions_layout_reordered :
    let o : Operands := ⟨[some "n", some "m", some "c"], [some "l", some "k", some "m", some "c"],
      [some "k", some "n", some "l", some "c"]⟩
    ∃ d, o.dimensions = .ok d ∧ d.bucket .primitive .k = ["l"] ∧ d.bucket .loop .k = ["k"] ∧
      d.bucket .primitive .n = ["n"] ∧ o.Layout d := by
  intro o
  have htest : o.dimensions.toOption.any (fun d => decide (d.bucket .primitive .k = ["l"] ∧
      d.bucket .loop .k = ["k"] ∧ d.bucket .primitive .n = ["n"])) = true := by decide +kernel
  obtain ⟨d, hd, htest⟩ := exists_ok_of_any htest
  obtain ⟨hk, hloop, hn⟩ := of_decide_eq_true htest
  exact ⟨d, hd, hk, hloop, hn, dimensions_layout o d (by decide) (by decide) hd⟩

end Contraction
