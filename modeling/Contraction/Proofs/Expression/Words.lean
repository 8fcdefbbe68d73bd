import Contraction.Proofs.Branch.Labels
import Contraction.Proofs.Expression.RoundTrip
import Contraction.Proofs.Plan.Numbering

/-!
# Labels that are words

The notation has letters and digits for labels. A tree that is read has no others, and a tree can be
written if it has no others and no right child stands alone.

* `Branch.isWritable_iff` — what can be written
* `Plan.isWritable_ofText` — what is read can be written
-/

namespace Contraction

instance Label.decidableIsWord : DecidablePred Label.IsWord
  | none => inferInstanceAs (Decidable False)
  | some name =>
    decidable_of_iff (name ≠ "" ∧ name.toList.all isLabelChar = true) (by
      rw [List.all_eq_true]
      rfl)

theorem Word.isWord (w : Word) : Label.IsWord (some w.name) :=
  ⟨by simpa using w.toList_ne_nil, w.isLabelChar_of_mem⟩

theorem isWord_of_labels {e : Entry} {words : List Word}
    (h : e.labels = (words.map Word.name).map some) : ∀ label ∈ e.labels, label.IsWord := by
  intro label hlabel
  rw [h, List.map_map] at hlabel
  obtain ⟨w, -, rfl⟩ := List.mem_map.mp hlabel
  exact w.isWord

namespace Branch

variable {b b' : Branch} {P : Label → Prop}

/-- A branch that shows what is derived has words for labels. -/
theorem Shows.allLabels_isWord {symbol : Nonterminal} {d : Derivation symbol}
    (h : b.Shows d.expression) : b.AllLabels Label.IsWord := by
  induction d generalizing b with
  | permutation operand words ih =>
    cases h with
    | permutation hl ho =>
      exact allLabels_node.mpr ⟨isWord_of_labels hl, ih ho, allLabels_absent⟩
  | contraction left plus right words ihl ihr =>
    cases h with
    | contraction hl hleft hright =>
      exact allLabels_node.mpr ⟨isWord_of_labels hl, ihl hleft, ihr hright⟩
  | inner node ih => exact ih h
  | leaf words =>
    cases h with
    | leaf hl =>
      exact allLabels_node.mpr ⟨isWord_of_labels hl, allLabels_absent, allLabels_absent⟩

/-- Branches that are alike have the same labels. -/
theorem Alike.allLabels (h : b.Alike b') (hb : b.AllLabels P) : b'.AllLabels P := by
  induction h with
  | absent => exact allLabels_absent
  | node hl hleft hright ihl ihr =>
    obtain ⟨htop, hbl, hbr⟩ := allLabels_node.mp hb
    exact allLabels_node.mpr ⟨hl ▸ htop, ihl hbl, ihr hbr⟩

theorem isWritable_iff : b.IsWritable ↔ b.LeftFirst ∧ b.AllLabels Label.IsWord := by
  constructor
  · intro h
    refine ⟨h.left, fun x hx label hlabel => ?_⟩
    obtain ⟨e, l, r, hn, rfl⟩ := exists_of_mem_bareEntries hx
    exact h.words (node e l r) hn label hlabel
  · rintro ⟨hleft, hwords⟩
    refine ⟨hleft, fun n hn label hlabel => ?_⟩
    cases n with
    | absent => cases hlabel
    | node e l r => exact hwords e.bare (bare_mem_bareEntries hn) label hlabel

end Branch

namespace Plan

variable {p : Plan} {text : Option String}

/-- What is read has words for labels. -/
theorem allLabels_isWord_ofText (h : ofText text = .ok p) : p.root.AllLabels Label.IsWord := by
  obtain ⟨hiff, -, -, hshows⟩ := ofText_derivation text
  obtain ⟨-, d, hd⟩ := hiff.mp ⟨p, h⟩
  have hroot := hshows p d h hd
  cases d with
  | node n closed => exact Branch.Shows.allLabels_isWord (d := n) hroot
  | leaf words closed => exact Branch.Shows.allLabels_isWord (d := .leaf words) hroot

/-- What is read can be written. -/
theorem isWritable_ofText (h : ofText text = .ok p) : p.root.IsWritable :=
  Branch.isWritable_iff.mpr
    ⟨(isNumbered_ofText h).proper.leftFirst, allLabels_isWord_ofText h⟩

end Plan

end Contraction
