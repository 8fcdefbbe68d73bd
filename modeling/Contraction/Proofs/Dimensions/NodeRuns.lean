import Contraction.Proofs.Dimensions.NodeLabels
import Contraction.Proofs.Except

/-!
# Where the labels of a node stand

The primitive parts of a node's labels are runs of the node, and the loop over the node keeps the
order of the lists. The loop takes labels off the end of the lists, and so everything is said of
ends: what is left of a list stands in front, and what has been placed stands behind it.

Two things carry this. The pointer only moves forward, and a kind that it leaves is closed, so of
the runs that have been placed only the one at the front can still grow (`Pointer.Runs`). And as
long as the pointer admits labels of all three lists, nothing but such labels has been placed, and
they are the common end of the lists (`Scan.LaidOut`).
-/

namespace Contraction

/-! ## The pointer -/

namespace Pointer

variable {p : Pointer} {kind other : Kind}

/-- Where the pointer can be: at its start, at a kind that is being filled, or, after a label that
went to the loops, at a place behind the first one. -/
inductive IsProper : Pointer → Prop where
  | start : IsProper ⟨.c, .nothing⟩
  | taking (kind : Kind) : IsProper (take kind)
  | looping {stage : Stage} (h : stage ≠ .c) : IsProper ⟨stage, .loop⟩

theorem admits_of_le (h : p.admits kind = true)
    (hle : (Stage.ofKind kind).rank ≤ (Stage.ofKind other).rank) : p.admits other = true := by
  rw [admits, decide_eq_true_iff] at h ⊢
  exact Nat.le_trans h hle

theorem toLoops_ne_take (p : Pointer) (kind : Kind) : p.toLoops ≠ take kind := by
  obtain ⟨stage, previous⟩ := p
  cases previous <;> exact fun h => by cases congrArg Pointer.previous h

theorem IsProper.toLoops (h : p.IsProper) : p.toLoops.IsProper := by
  cases h with
  | start => exact .looping (by decide)
  | taking kind => exact .looping (by cases kind <;> decide)
  | looping h => exact .looping h

/-- The pointer only moves forward, and it moves on from a kind that is being filled. -/
theorem IsProper.admits_of_toLoops (h : p.IsProper) (ha : p.toLoops.admits kind = true) :
    p.admits kind = true ∧ p ≠ take kind := by
  cases h with
  | start => cases kind <;> revert ha <;> decide
  | taking other => cases other <;> cases kind <;> revert ha <;> decide
  | looping h => exact ⟨ha, fun heq => by cases heq⟩

theorem IsProper.not_admits_toLoops (h : p.IsProper) : ¬p.toLoops.admits .c = true := by
  cases h with
  | start => decide
  | taking kind => cases kind <;> decide
  | @looping stage h => cases stage <;> revert h <;> decide

/-- The labels of the node that have been placed: three runs, and gaps in front of them. Where the
pointer admits a kind, its run stands at the front and those of the kinds behind it are empty; if it
has begun, the pointer is filling it. -/
structure Runs (p : Pointer) (b : Buckets) (placed gapN gapM gapC : List Label) : Prop where
  proper : p.IsProper
  eq : placed = gapN ++ b.n.map some ++ gapM ++ b.m.map some ++ gapC ++ b.c.map some
  front_n : p.admits .n = true → gapN = [] ∧ (b.n = [] ∨ p = take .n)
  front_m : p.admits .m = true → b.n = [] ∧ gapM = [] ∧ (b.m = [] ∨ p = take .m)
  front_c : p.admits .c = true → b.m = [] ∧ gapC = []

/-- The labels that have been placed make runs with some gaps. -/
def HasRuns (p : Pointer) (b : Buckets) (placed : List Label) : Prop :=
  ∃ gapN gapM gapC, p.Runs b placed gapN gapM gapC

namespace HasRuns

variable {b : Buckets} {placed : List Label} {name : String} {label : Label}

theorem start : (⟨.c, .nothing⟩ : Pointer).HasRuns {} [] :=
  ⟨[], [], [], .start, rfl, fun _ => ⟨rfl, .inl rfl⟩, fun _ => ⟨rfl, rfl, .inl rfl⟩,
    fun _ => ⟨rfl, rfl⟩⟩

/-- As long as labels of all three lists are admitted, no others have been placed. -/
theorem eq_of_admits (h : p.HasRuns b placed) (ha : p.admits .c = true) :
    b.n = [] ∧ b.m = [] ∧ placed = b.c.map some := by
  obtain ⟨gapN, gapM, gapC, hruns⟩ := h
  have hm : p.admits .m = true := admits_of_le ha (by decide)
  have hn : p.admits .n = true := admits_of_le ha (by decide)
  obtain ⟨rfl, -⟩ := hruns.front_n hn
  obtain ⟨hbn, rfl, -⟩ := hruns.front_m hm
  obtain ⟨hbm, rfl⟩ := hruns.front_c ha
  exact ⟨hbn, hbm, by simpa [hbn, hbm] using hruns.eq⟩

theorem not_admits_toLoops (h : p.HasRuns b placed) : ¬p.toLoops.admits .c = true := by
  obtain ⟨gapN, gapM, gapC, hruns⟩ := h
  exact hruns.proper.not_admits_toLoops

/-- A label of a kind that is admitted is put in front of its run. -/
theorem take (h : p.HasRuns b placed) (ha : p.admits kind = true) (hk : kind ≠ .k) :
    (take kind).HasRuns (b.push kind name) (some name :: placed) := by
  cases kind with
  | c =>
    obtain ⟨hn, hm, rfl⟩ := h.eq_of_admits ha
    exact ⟨[], [], [], .taking .c, by simp [Buckets.push, hn, hm], fun _ => ⟨rfl, .inl hn⟩,
      fun _ => ⟨hn, rfl, .inl hm⟩, fun _ => ⟨hm, rfl⟩⟩
  | m =>
    obtain ⟨gapN, gapM, gapC, hruns⟩ := h
    obtain ⟨rfl, -⟩ := hruns.front_n (admits_of_le ha (by decide))
    obtain ⟨hn, rfl, -⟩ := hruns.front_m ha
    refine ⟨[], [], gapC, .taking .m, ?_, fun _ => ⟨rfl, .inl hn⟩, fun _ => ⟨hn, rfl, .inr rfl⟩,
      fun hc => absurd hc (by decide)⟩
    simp [Buckets.push, hn, hruns.eq]
  | n =>
    obtain ⟨gapN, gapM, gapC, hruns⟩ := h
    obtain ⟨rfl, -⟩ := hruns.front_n ha
    refine ⟨[], gapM, gapC, .taking .n, ?_, fun _ => ⟨rfl, .inr rfl⟩,
      fun hm => absurd hm (by decide), fun hc => absurd hc (by decide)⟩
    simp [Buckets.push, hruns.eq]
  | k => exact absurd rfl hk

/-- When a label goes to the loops, the runs of all kinds that are still admitted are empty. -/
theorem toLoops (h : p.HasRuns b placed) : p.toLoops.HasRuns b placed := by
  obtain ⟨gapN, gapM, gapC, hruns⟩ := h
  refine ⟨gapN, gapM, gapC, hruns.proper.toLoops, hruns.eq, fun hn => ?_, fun hm => ?_,
    fun hc => absurd hc hruns.proper.not_admits_toLoops⟩
  · obtain ⟨hadmits, hne⟩ := hruns.proper.admits_of_toLoops hn
    obtain ⟨hgap, hbn⟩ := hruns.front_n hadmits
    exact ⟨hgap, .inl (hbn.resolve_right hne)⟩
  · obtain ⟨hadmits, hne⟩ := hruns.proper.admits_of_toLoops hm
    obtain ⟨hbn, hgap, hbm⟩ := hruns.front_m hadmits
    exact ⟨hbn, hgap, .inl (hbm.resolve_right hne)⟩

/-- A label that goes to the loops is put into the gap in front of the runs that have begun. -/
theorem pass (h : p.HasRuns b placed) : p.toLoops.HasRuns b (label :: placed) := by
  obtain ⟨gapN, gapM, gapC, hruns⟩ := h.toLoops
  have hc := h.not_admits_toLoops
  by_cases hn : p.toLoops.admits .n = true
  · obtain ⟨rfl, hbn⟩ := hruns.front_n hn
    have hbn : b.n = [] := hbn.resolve_right (toLoops_ne_take p .n)
    by_cases hm : p.toLoops.admits .m = true
    · obtain ⟨-, rfl, hbm⟩ := hruns.front_m hm
      have hbm : b.m = [] := hbm.resolve_right (toLoops_ne_take p .m)
      refine ⟨[], [], label :: gapC, hruns.proper, ?_, fun _ => ⟨rfl, .inl hbn⟩,
        fun _ => ⟨hbn, rfl, .inl hbm⟩, fun h => absurd h hc⟩
      simp [hruns.eq, hbn, hbm]
    · refine ⟨[], label :: gapM, gapC, hruns.proper, ?_, fun _ => ⟨rfl, .inl hbn⟩,
        fun h => absurd h hm, fun h => absurd h hc⟩
      simp [hruns.eq, hbn]
  · have hm : ¬p.toLoops.admits .m = true := fun h => hn (admits_of_le h (by decide))
    refine ⟨label :: gapN, gapM, gapC, hruns.proper, ?_, fun h => absurd h hn,
      fun h => absurd h hm, fun h => absurd h hc⟩
    simp [hruns.eq]

end HasRuns

end Pointer

/-! ## The common end of the lists -/

/-- All three lists end in some labels. -/
def Operands.EndIn (o : Operands) (labels : List Label) : Prop :=
  labels <:+ o.node ∧ labels <:+ o.left ∧ labels <:+ o.right

theorem cons_suffix_append {label : Label} {labels run : List Label} :
    label :: run <:+ labels.reverse ++ run ↔ labels.head? = some label := by
  rw [← List.reverse_prefix, List.reverse_append, List.reverse_reverse, List.reverse_cons,
    List.prefix_append_right_inj]
  cases labels with
  | nil => simp
  | cons x labels => simp [eq_comm]

/-- Where no longer end is common, all common ends are within. -/
theorem Operands.EndIn.suffix {o : Operands} {labels other : List Label} (h : o.EndIn labels)
    (hlongest : ∀ label, ¬o.EndIn (label :: labels)) (hother : o.EndIn other) :
    other <:+ labels := by
  rcases List.suffix_or_suffix_of_suffix hother.1 h.1 with hwithin | ⟨front, rfl⟩
  · exact hwithin
  · rcases List.eq_nil_or_concat front with rfl | ⟨front, label, rfl⟩
    · exact List.suffix_rfl
    · -- the last label in front of the common end would make it longer
      have hlonger : label :: labels <:+ front.concat label ++ labels := ⟨front, by simp⟩
      exact absurd ⟨hlonger.trans hother.1, hlonger.trans hother.2.1, hlonger.trans hother.2.2⟩
        (hlongest label)

theorem Dimensions.bucket_push (d : Dimensions) (part other : Part) (kind place : Kind)
    (name : String) : (d.push part kind name).bucket other place =
      if part = other ∧ kind = place then name :: d.bucket other place
      else d.bucket other place := by
  cases part <;> cases other <;> simp [push, bucket, Buckets.get_push]

/-! ## The loop over the node -/

namespace Scan

variable {o : Operands} {placed : List Label} {s t : Scan} {label : Label} {rest : List Label}
  {kind : Kind} {d : Dimensions}

/-- A label goes into the primitive part of a kind that the pointer admits, from the end of the
operands that have this kind. -/
inductive Fits (s : Scan) (label : Label) : Kind → Prop where
  | c (hl : s.left.head? = some label) (hr : s.right.head? = some label)
      (ha : s.pointer.admits .c = true) : Fits s label .c
  | m (hl : s.left.head? = some label) (ha : s.pointer.admits .m = true) : Fits s label .m
  | n (hr : s.right.head? = some label) (ha : s.pointer.admits .n = true) : Fits s label .n

theorem fits_of_primitiveKind? (h : s.primitiveKind? label = some kind) : s.Fits label kind := by
  unfold primitiveKind? at h
  simp only [Bool.and_eq_true, beq_iff_eq] at h
  split at h
  · next hc =>
    obtain rfl := Option.some.inj h
    exact .c hc.1.1 hc.1.2 hc.2
  · split at h
    · next hm =>
      obtain rfl := Option.some.inj h
      exact .m hm.1.1.1 hm.1.2
    · split at h
      · next hn =>
        obtain rfl := Option.some.inj h
        exact .n hn.1.1.1 hn.1.2
      · cases h

theorem primitiveKind?_eq_c (hl : s.left.head? = some label) (hr : s.right.head? = some label)
    (ha : s.pointer.admits .c = true) : s.primitiveKind? label = some .c := by
  simp [primitiveKind?, hl, hr, ha]

theorem place_eq_ok {part : Part} {pointer : Pointer}
    (h : s.place part kind pointer label rest = .ok t) :
    ∃ name, label = some name ∧ t = ⟨rest, without label s.left, without label s.right, pointer,
      s.dims.push part kind name⟩ := by
  obtain ⟨d, hd, rfl⟩ := except_map_eq_ok.mp h
  obtain ⟨name, rfl, -, -, rfl⟩ := Dimensions.enter_eq_ok hd
  exact ⟨name, rfl, rfl⟩

/-- A step that goes through takes a label into the primitive part, or moves the pointer on to the
loops and then places the label there or takes another one out of its way. -/
theorem step_eq_ok (h : s.step label rest = .ok t) :
    (∃ kind, s.primitiveKind? label = some kind ∧
      s.place .primitive kind (.take kind) label rest = .ok t) ∨
    s.primitiveKind? label = none ∧
      ((∃ kind, s.place .loop kind s.pointer.toLoops label rest = .ok t) ∨
        ∃ blocker, t = s.unblock blocker) := by
  unfold step at h
  split at h
  · next kind hkind => exact Or.inl ⟨kind, hkind, h⟩
  · next hkind =>
    refine Or.inr ⟨hkind, ?_⟩
    split at h
    · exact Or.inl ⟨_, h⟩
    · split at h
      · next blocker _ => exact Or.inr ⟨blocker, (Except.ok.inj h).symm⟩
      · split at h
        · exact Or.inl ⟨_, h⟩
        · cases h

/-- What has been placed stands behind what is left of the node, in runs. The labels that are left
of an operand stand in front of those of its run. The labels that end all lists are the run of the
first kind; while the pointer admits this kind, nothing else has been taken off. -/
structure LaidOut (o : Operands) (placed : List Label) (s : Scan) : Prop where
  node_eq : o.node = s.node.reverse ++ placed
  runs : s.pointer.HasRuns s.dims.primitive placed
  ordered : ∀ part kind, ((s.dims.bucket part kind).map some).Sublist placed
  left : (s.left.reverse ++ s.dims.primitive.m.map some).Sublist o.left
  right : (s.right.reverse ++ s.dims.primitive.n.map some).Sublist o.right
  open_end : s.pointer.admits .c = true →
    o.left = s.left.reverse ++ s.dims.primitive.c.map some ∧
      o.right = s.right.reverse ++ s.dims.primitive.c.map some
  closed_end : ¬s.pointer.admits .c = true →
    o.EndIn (s.dims.primitive.c.map some) ∧
      ∀ label, ¬o.EndIn (label :: s.dims.primitive.c.map some)

namespace LaidOut

/-- A label that does not go on with the common end of the lists closes it. -/
theorem closes (h : s.LaidOut o placed) (hn : s.node = label :: rest)
    (hk : s.primitiveKind? label ≠ some .c) : o.EndIn (s.dims.primitive.c.map some) ∧
      ∀ label, ¬o.EndIn (label :: s.dims.primitive.c.map some) := by
  by_cases ha : s.pointer.admits .c = true
  · obtain ⟨-, -, rfl⟩ := h.runs.eq_of_admits ha
    obtain ⟨hl, hr⟩ := h.open_end ha
    have hnode := h.node_eq
    refine ⟨⟨hnode ▸ List.suffix_append .., hl ▸ List.suffix_append .., hr ▸ List.suffix_append ..⟩,
      ?_⟩
    rintro x ⟨hxn, hxl, hxr⟩
    rw [hnode, cons_suffix_append, hn, List.head?_cons, Option.some.injEq] at hxn
    rw [hl, cons_suffix_append] at hxl
    rw [hr, cons_suffix_append] at hxr
    exact hk (hxn ▸ primitiveKind?_eq_c hxl hxr ha)
  · exact h.closed_end ha

/-- A label at the end of an operand goes behind what is left of it, in front of the run. -/
theorem takeEnd {labels run whole : List Label} (h : (labels.reverse ++ run).Sublist whole)
    (hl : labels.head? = some label) :
    ((without label labels).reverse ++ label :: run).Sublist whole := by
  obtain ⟨behind, rfl⟩ := List.head?_eq_some_iff.mp hl
  have hrest : (without label (label :: behind)).Sublist behind := by
    rw [without, List.filter_cons_of_neg (by simp)]
    exact List.filter_sublist
  refine List.Sublist.trans ?_ h
  rw [List.reverse_cons, List.append_assoc, List.singleton_append]
  exact hrest.reverse.append_right _

theorem takeOff {labels run whole : List Label} (h : (labels.reverse ++ run).Sublist whole) :
    ((without label labels).reverse ++ run).Sublist whole :=
  (List.filter_sublist.reverse.append_right run).trans h

/-- Without a label that comes once, a list that ends in it is what stands in front. -/
theorem without_eq {labels whole run : List Label} (hnodup : whole.Nodup)
    (h : whole = labels.reverse ++ run) (hl : labels.head? = some label) :
    whole = (without label labels).reverse ++ label :: run := by
  obtain ⟨behind, rfl⟩ := List.head?_eq_some_iff.mp hl
  have hnew : label ∉ behind := by
    have hlabels : (label :: behind).Nodup := by
      rw [h] at hnodup
      exact List.nodup_reverse.mp (List.nodup_append.mp hnodup).1
    exact (List.nodup_cons.mp hlabels).1
  have hrest : without label (label :: behind) = behind := by
    rw [without, List.filter_cons_of_neg (by simp)]
    exact List.filter_eq_self.mpr fun x hx => by
      simp only [bne_iff_ne, ne_eq]
      rintro rfl
      exact hnew hx
  rw [h, hrest, List.reverse_cons, List.append_assoc, List.singleton_append]

theorem ordered_push (h : s.LaidOut o placed) (part : Part) (kind : Kind) (name : String)
    (other : Part) (place : Kind) :
    (((s.dims.push part kind name).bucket other place).map some).Sublist (some name :: placed) := by
  rw [Dimensions.bucket_push]
  split
  · exact (h.ordered other place).cons_cons _
  · exact (h.ordered other place).cons _

/-- A label goes into the primitive part. -/
theorem takePrimitive (h : s.LaidOut o placed) (hl : o.left.Nodup) (hr : o.right.Nodup)
    (hn : s.node = label :: rest) (hk : s.primitiveKind? label = some kind)
    (hp : s.place .primitive kind (.take kind) label rest = .ok t) :
    t.LaidOut o (label :: placed) := by
  obtain ⟨name, rfl, rfl⟩ := place_eq_ok hp
  have hnode : o.node = rest.reverse ++ some name :: placed := by
    rw [h.node_eq, hn, List.reverse_cons, List.append_assoc, List.singleton_append]
  cases fits_of_primitiveKind? hk with
  | c hleft hright ha =>
    obtain ⟨hol, hor⟩ := h.open_end ha
    exact {
      node_eq := hnode
      runs := h.runs.take ha (by decide)
      ordered := h.ordered_push .primitive .c name
      left := takeOff h.left
      right := takeOff h.right
      open_end := fun _ => ⟨without_eq hl hol hleft, without_eq hr hor hright⟩
      closed_end := fun hno => absurd rfl hno }
  | m hleft ha =>
    exact {
      node_eq := hnode
      runs := h.runs.take ha (by decide)
      ordered := h.ordered_push .primitive .m name
      left := takeEnd h.left hleft
      right := takeOff h.right
      open_end := fun hc => absurd (show (Pointer.take .m).admits .c = true from hc) (by decide)
      closed_end := fun _ => h.closes hn (by rw [hk]; decide) }
  | n hright ha =>
    exact {
      node_eq := hnode
      runs := h.runs.take ha (by decide)
      ordered := h.ordered_push .primitive .n name
      left := takeOff h.left
      right := takeEnd h.right hright
      open_end := fun hc => absurd (show (Pointer.take .n).admits .c = true from hc) (by decide)
      closed_end := fun _ => h.closes hn (by rw [hk]; decide) }

/-- A label goes to the loops. -/
theorem takeLoop (h : s.LaidOut o placed) (hn : s.node = label :: rest)
    (hk : s.primitiveKind? label = none)
    (hp : s.place .loop kind s.pointer.toLoops label rest = .ok t) :
    t.LaidOut o (label :: placed) := by
  obtain ⟨name, rfl, rfl⟩ := place_eq_ok hp
  exact {
    node_eq := by rw [h.node_eq, hn, List.reverse_cons, List.append_assoc, List.singleton_append]
    runs := h.runs.pass
    ordered := h.ordered_push .loop kind name
    left := takeOff h.left
    right := takeOff h.right
    open_end := fun hc => absurd hc h.runs.not_admits_toLoops
    closed_end := fun _ => h.closes hn (by rw [hk]; decide) }

/-- A label is taken out of the way. -/
theorem unblock (h : s.LaidOut o placed) (hn : s.node = label :: rest)
    (hk : s.primitiveKind? label = none) (blocker : Label) :
    (s.unblock blocker).LaidOut o placed where
  node_eq := h.node_eq
  runs := h.runs.toLoops
  ordered := h.ordered
  left := takeOff h.left
  right := takeOff h.right
  open_end := fun hc => absurd hc h.runs.not_admits_toLoops
  closed_end := fun _ => h.closes hn (by rw [hk]; decide)

theorem step (h : s.LaidOut o placed) (hl : o.left.Nodup) (hr : o.right.Nodup)
    (hn : s.node = label :: rest) (hs : s.step label rest = .ok t) :
    ∃ placed, t.LaidOut o placed := by
  rcases step_eq_ok hs with ⟨kind, hk, hp⟩ | ⟨hk, ⟨kind, hp⟩ | ⟨blocker, rfl⟩⟩
  · exact ⟨label :: placed, h.takePrimitive hl hr hn hk hp⟩
  · exact ⟨label :: placed, h.takeLoop hn hk hp⟩
  · exact ⟨placed, h.unblock hn hk blocker⟩

/-- The scan with which the placing begins. -/
theorem initial (o : Operands) : LaidOut o []
    ⟨o.node.reverse, o.left.reverse, o.right.reverse, ⟨.c, .nothing⟩, .empty⟩ where
  node_eq := by simp
  runs := .start
  ordered := fun part kind => by cases part <;> cases kind <;> exact List.Sublist.slnil
  left := by simp [Dimensions.empty]
  right := by simp [Dimensions.empty]
  open_end := fun _ => by simp [Dimensions.empty]
  closed_end := fun hc =>
    absurd (show (⟨.c, .nothing⟩ : Pointer).admits .c = true by decide) hc

/-- The loop keeps the layout, until the whole node has been placed. -/
theorem placeNode (h : s.LaidOut o placed) (hl : o.left.Nodup) (hr : o.right.Nodup)
    (hd : s.placeNode = .ok d) : ∃ t : Scan, t.LaidOut o o.node ∧ t.dims = d := by
  fun_induction Scan.placeNode s generalizing placed with
  | case1 s hn =>
    have hnode : o.node = placed := by simpa [hn] using h.node_eq
    exact ⟨s, hnode ▸ h, Except.ok.inj hd⟩
  | case2 s label rest hn e hs => cases hd
  | case3 s label rest hn t hs ih =>
    obtain ⟨placed, ht⟩ := h.step hl hr hn hs
    exact ih ht hd

/-- When the whole node has been placed, its end can have no further label. -/
theorem longest (h : s.LaidOut o o.node) : o.EndIn (s.dims.primitive.c.map some) ∧
    ∀ label, ¬o.EndIn (label :: s.dims.primitive.c.map some) := by
  by_cases ha : s.pointer.admits .c = true
  · obtain ⟨-, -, hnode⟩ := h.runs.eq_of_admits ha
    obtain ⟨hl, hr⟩ := h.open_end ha
    refine ⟨⟨hnode ▸ List.suffix_rfl, hl ▸ List.suffix_append .., hr ▸ List.suffix_append ..⟩, ?_⟩
    rintro label ⟨hlonger, -, -⟩
    have hle := hlonger.length_le
    rw [hnode, List.length_cons] at hle
    omega
  · exact h.closed_end ha

end LaidOut

end Scan

end Contraction
