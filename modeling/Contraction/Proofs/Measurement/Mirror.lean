import Contraction.Proofs.Measurement.Figures

/-!
# Operands exchanged

Placing looks at the two operands in different ways, so that labels may come to stand in other parts
when the operands are exchanged. Their kinds are mirrored: what only the left operand shares with
the node is then what only the right one does, and else nothing changes. Whether there is a
contraction and what it costs is the same either way.

* `kind?_swap` — the kinds of all labels are mirrored
* `finding_swap` — a node comes to the same
-/

namespace Contraction

/-- The kind that a label has when the operands are exchanged. -/
def Kind.mirror : Kind → Kind
  | .c => .c
  | .m => .n
  | .n => .m
  | .k => .k

namespace Operands

variable {o : Operands} {d : Dimensions} {kind : Kind} {label : Label} {size : Label → Int}

/-- The same labels with the operands exchanged. -/
def swap (o : Operands) : Operands :=
  ⟨o.node, o.right, o.left⟩

theorem hasKind_swap : o.swap.HasKind kind label ↔ o.HasKind kind.mirror label := by
  cases kind with
  | c => exact and_congr_right fun _ => and_comm
  | m => exact and_congr_right fun _ => and_comm
  | n => exact and_congr_right fun _ => and_comm
  | k => exact and_congr_right fun _ => and_comm

theorem IsContraction.swap (h : o.IsContraction) : o.swap.IsContraction where
  nodup := h.nodup
  named := fun label hlabel => h.named label (by
    simp only [Operands.swap, List.mem_append] at hlabel ⊢
    tauto)
  covered := fun label hlabel => (h.covered label hlabel).symm
  summed := fun label hlabel hn => (h.summed label (by
    simp only [Operands.swap, List.mem_append] at hlabel ⊢
    exact hlabel.symm) hn).symm

theorem isContraction_swap : o.swap.IsContraction ↔ o.IsContraction :=
  ⟨fun h => h.swap, fun h => h.swap⟩

/-- With the operands exchanged the labels are still divided, and their kinds are mirrored. -/
theorem kind?_swap (h : o.dimensions = .ok d) :
    ∃ d', o.swap.dimensions = .ok d' ∧ ∀ label, d'.kind? label = (d.kind? label).map .mirror := by
  obtain ⟨hc, hd⟩ := dimensions_ok h
  obtain ⟨d', h'⟩ := dimensions_isOk.mpr hc.swap
  obtain ⟨hc', hd'⟩ := dimensions_ok h'
  have hmirror : ∀ {label kind}, d.kind? label = some kind →
      d'.kind? label = some kind.mirror := by
    intro label kind hk
    rw [hd'.kind?_eq_some hc', hasKind_swap]
    have hkind := (hd.kind?_eq_some hc).mp hk
    cases kind <;> exact hkind
  refine ⟨d', h', fun label => ?_⟩
  cases hk : d.kind? label with
  | some kind => exact hmirror hk
  | none =>
    cases hk' : d'.kind? label with
    | none => rfl
    | some kind =>
      -- a kind with the operands exchanged would be one, mirrored, with them as they were
      have hkind := hasKind_swap.mp ((hd'.kind?_eq_some hc').mp hk')
      rw [(hd.kind?_eq_some hc).mpr hkind] at hk
      cases hk

theorem extent_swap : o.swap.extent size kind = o.extent size kind.mirror := by
  have hlabels : o.swap.labelsOf kind = o.labelsOf kind.mirror := by
    ext label
    rw [mem_labelsOf, mem_labelsOf, hasKind_swap]
  rw [extent, hlabels]
  rfl

theorem operationCount_swap : o.swap.operationCount size = o.operationCount size := by
  rw [operationCount, extent_swap]
  rfl

theorem accessCount_swap : o.swap.accessCount size = o.accessCount size := by
  rw [accessCount, extent_swap, extent_swap, extent_swap]
  exact Int.add_right_comm ..

/-- What a node comes to does not depend on which of its operands is on the left side. -/
theorem finding_swap (size : Label → Int) (o : Operands) :
    o.swap.finding size = o.finding size := by
  by_cases hc : o.IsContraction
  · rw [finding, finding, if_pos hc, if_pos hc.swap, operationCount_swap, accessCount_swap]
  · rw [finding, finding, if_neg hc, if_neg fun h => hc (isContraction_swap.mp h)]

end Operands

end Contraction
