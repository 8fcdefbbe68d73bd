import Contraction.Measurement.Cost
import Contraction.Measurement.Settings
import Contraction.Proofs.Dimensions.Placement
import Mathlib.Algebra.BigOperators.Group.Finset.Basic
import Mathlib.Algebra.Ring.Int.Defs

/-!
# The costs of a contraction

What a contraction costs, said by products over sets of labels, and that the products over the
buckets are these. Each label counts once, wherever it stands and however often an operand repeats
it; how the labels of a kind are divided into parts does not matter.

* `operationCount`, `accessCount` — the costs by sets of labels
* `extents_of_dimensions` — what is computed from the buckets are these
-/

namespace Contraction

/-- The size that a label has under a configuration. -/
def Config.sizeOf (config : Config) (sizes : Table Int) (label : Label) : Int :=
  (label.bind sizes.get?).getD config.defaultSize

/-- A sizing by a table of integers never fails. -/
theorem Sizing.ofTable_int (sizes : Table Int) (config : Config) :
    Sizing.ofTable (sizes.map .int) (.int config.defaultSize) =
      fun label => .ok (config.sizeOf sizes label) := by
  funext label
  cases label with
  | none => rfl
  | some name =>
    simp only [Sizing.ofTable, Config.sizeOf, Option.bind_some, Table.get?_map]
    cases sizes.get? name <;> rfl

/-- The sizes of some labels, multiplied. -/
theorem Sizing.product_total (size : Label → Int) (labels : List Label) :
    Sizing.product (fun label => .ok (size label)) labels = .ok (labels.map size).prod := by
  have hsizes : labels.mapM (fun label => (.ok (size label) : Except ConversionFault Int)) =
      .ok (labels.map size) := List.mapM_pure
  rw [Sizing.product, hsizes]
  rfl

namespace Operands

variable (size : Label → Int) (o : Operands)

/-- The labels of a kind. -/
def labelsOf : Kind → Finset Label
  | .c => o.node.toFinset ∩ o.left.toFinset ∩ o.right.toFinset
  | .m => (o.node.toFinset ∩ o.left.toFinset) \ o.right.toFinset
  | .n => (o.node.toFinset ∩ o.right.toFinset) \ o.left.toFinset
  | .k => (o.left.toFinset ∩ o.right.toFinset) \ o.node.toFinset

/-- The elements of the node's tensor. -/
def nodeVolume : Int :=
  ∏ label ∈ o.node.toFinset, size label

/-- The sizes of the labels of a kind, multiplied. -/
def extent (kind : Kind) : Int :=
  ∏ label ∈ o.labelsOf kind, size label

/-- The operations of a contraction: each element of the node's tensor is a sum of as many products
as there are combinations of the labels summed over. -/
def operationCount : Int :=
  2 * o.nodeVolume size * o.extent size .k - o.nodeVolume size

/-- The elements that a contraction writes and reads. -/
def accessCount : Int :=
  o.nodeVolume size + o.extent size .n * o.extent size .k + o.extent size .m * o.extent size .k

variable {size o}

/-- Each element of the node's tensor takes one operation less than twice the products summed. -/
theorem operationCount_eq (size : Label → Int) (o : Operands) :
    o.operationCount size = o.nodeVolume size * (2 * o.extent size .k - 1) := by
  rw [operationCount, Int.mul_sub, Int.mul_one, Int.mul_left_comm, Int.mul_assoc]

theorem mem_labelsOf {kind : Kind} {label : Label} :
    label ∈ o.labelsOf kind ↔ o.HasKind kind label := by
  cases kind with
  | c => simp [labelsOf, HasKind]
  | m => simp [labelsOf, HasKind, and_assoc]
  | n =>
    simp only [labelsOf, HasKind, Finset.mem_sdiff, Finset.mem_inter, List.mem_toFinset]
    rw [and_assoc, and_comm (a := label ∈ o.right)]
  | k =>
    simp only [labelsOf, HasKind, Finset.mem_sdiff, Finset.mem_inter, List.mem_toFinset]
    rw [and_comm]

theorem mem_of_mem_labelsOf {kind : Kind} {label : Label} (h : label ∈ o.labelsOf kind) :
    label ∈ o.node ++ o.left ++ o.right := by
  rw [mem_labelsOf] at h
  cases kind <;> simp_all [HasKind]

/-- Different kinds have no label in common. -/
theorem disjoint_labelsOf {kind other : Kind} (h : kind ≠ other) :
    Disjoint (o.labelsOf kind) (o.labelsOf other) := by
  rw [Finset.disjoint_left]
  intro label hk ho
  exact h ((mem_labelsOf.mp hk).unique (mem_labelsOf.mp ho))

/-- The labels of the node are those of the kinds that are not summed over. -/
theorem IsContraction.node_toFinset (h : o.IsContraction) :
    o.node.toFinset = o.labelsOf .c ∪ o.labelsOf .m ∪ o.labelsOf .n := by
  ext label
  have hc := h.covered label
  simp only [Finset.mem_union, mem_labelsOf, HasKind, List.mem_toFinset]
  tauto

theorem IsContraction.nodeVolume_eq (h : o.IsContraction) :
    o.nodeVolume size = o.extent size .c * o.extent size .m * o.extent size .n := by
  -- the label of the node is in exactly one of the three kinds, so its size is in one product
  have hcm : Disjoint (o.labelsOf .c) (o.labelsOf .m) := disjoint_labelsOf (by decide)
  have hn : Disjoint (o.labelsOf .c ∪ o.labelsOf .m) (o.labelsOf .n) :=
    Finset.disjoint_union_left.mpr
      ⟨disjoint_labelsOf (by decide), disjoint_labelsOf (by decide)⟩
  rw [nodeVolume, h.node_toFinset, Finset.prod_union hn, Finset.prod_union hcm]
  rfl

end Operands

namespace Dimensions

variable {d : Dimensions} {o : Operands} {size : Label → Int}

theorem nodup_ofKind (h : d.labels.Nodup) (kind : Kind) : (d.ofKind kind).Nodup := by
  rw [List.nodup_iff_count_le_one] at h ⊢
  intro name
  -- a kind takes two of the eight buckets
  have hle : (d.ofKind kind).count name ≤ d.labels.count name := by
    cases kind <;> simp [ofKind, labels, Buckets.get, Buckets.labels] <;> omega
  exact hle.trans (h name)

/-- The names listed under a kind are the labels of the kind, all of which have names. -/
theorem Lists.toFinset_ofKind (h : d.Lists fun kind name => o.HasKind kind (some name))
    (hc : o.IsContraction) (kind : Kind) :
    ((d.ofKind kind).map some).toFinset = o.labelsOf kind := by
  ext label
  rw [List.mem_toFinset, List.mem_map, Operands.mem_labelsOf]
  constructor
  · rintro ⟨name, hname, rfl⟩
    exact (h.mem_ofKind kind name).mp hname
  · intro hk
    -- a missing label has no kind in a contraction, so nothing is lost by listing names
    obtain ⟨name, rfl, -⟩ := (hc.named label (hc.exists_hasKind.mp ⟨kind, hk⟩)).exists_name
    exact ⟨name, (h.mem_ofKind kind name).mpr hk, rfl⟩

theorem Lists.prod_ofKind (h : d.Lists fun kind name => o.HasKind kind (some name))
    (hc : o.IsContraction) (kind : Kind) :
    (((d.ofKind kind).map some).map size).prod = o.extent size kind := by
  have hnodup : ((d.ofKind kind).map some).Nodup :=
    (nodup_ofKind h.nodup kind).map (Option.some_injective _)
  rw [Operands.extent, ← h.toFinset_ofKind hc kind, List.prod_toFinset size hnodup]

/-- The products over the buckets are those over the sets of labels. -/
theorem Lists.extents_eq (h : d.Lists fun kind name => o.HasKind kind (some name))
    (hc : o.IsContraction) :
    d.extents (fun label => .ok (size label)) =
      .ok ⟨o.extent size .c, o.extent size .m, o.extent size .n, o.extent size .k⟩ := by
  simp only [extents, Sizing.product_total, h.prod_ofKind hc]
  rfl

end Dimensions

/-- What the buckets of a contraction cost is what its sets of labels do. -/
theorem Operands.extents_of_dimensions {o : Operands} {d : Dimensions} (size : Label → Int)
    (h : o.dimensions = .ok d) :
    ∃ x, d.extents (fun label => .ok (size label)) = .ok x ∧
      x.operations = o.operationCount size ∧ x.byteAccesses = o.accessCount size := by
  obtain ⟨hc, hd⟩ := dimensions_ok h
  refine ⟨_, hd.extents_eq hc, ?_, ?_⟩
  · rw [operationCount, hc.nodeVolume_eq, Extents.operations]
  · rw [accessCount, hc.nodeVolume_eq, Extents.byteAccesses]

end Contraction
