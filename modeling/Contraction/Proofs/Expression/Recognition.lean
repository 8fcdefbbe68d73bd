import Contraction.Plan
import Contraction.Proofs.Branch.Shape
import Contraction.Proofs.Expression.Acceptance
import Contraction.Proofs.Expression.Soundness

/-!
# Reading recognizes the grammar

A text is read exactly if what remains without its blanks is not empty and has a derivation. The
derivation is the only one, and the tree that comes out has its shape and its labels.
-/

namespace Contraction

open Text

namespace Situation

/-- A list of labels that nothing closes is read to its end. -/
theorem run_openLabels (words : List Word) :
    ∃ s, initial.run (Word.listYield words) = (s, []) ∧
      s.result? = some (.leaf (words.map Word.name)) := by
  cases words with
  | nil => exact ⟨initial, run_nil initial, rfl⟩
  | cons w words =>
    refine ⟨⟨[], .labels .operand ([w.name] ++ words.map Word.name)⟩, ?_, rfl⟩
    calc initial.run (Word.listYield (w :: words))
        = run ⟨[], .start .operand⟩ (w.chars ++ (Word.moreYield words ++ [])) := by
          rw [List.append_nil]
          rfl
      _ = run ⟨[], .labels .operand [w.name]⟩ (Word.moreYield words ++ []) :=
          run_first w (Word.endsLabel_moreYield words endsLabel_nil)
      _ = run ⟨[], .labels .operand ([w.name] ++ words.map Word.name)⟩ [] :=
          run_more words endsLabel_nil
      _ = (⟨[], .labels .operand ([w.name] ++ words.map Word.name)⟩, []) := run_nil _

/-- The text of a derivation is read to its end, and gives the expression derived. -/
theorem run_whole (d : WholeDerivation) :
    ∃ s, initial.run d.yield = (s, []) ∧ s.result? = some d.expression := by
  cases d with
  | node n closed =>
    have hnode := run_derivation n [] (by simp) (WholeDerivation.closing closed)
    cases closed with
    | false => exact ⟨_, hnode.trans (run_nil _), rfl⟩
    | true => exact ⟨_, (hnode.trans run_closing_whole).trans (run_nil _), rfl⟩
  | leaf labels closed =>
    cases closed with
    | false =>
      simp only [WholeDerivation.yield, WholeDerivation.closing, Bool.false_eq_true, if_false,
        List.append_nil]
      exact run_openLabels labels
    | true => exact ⟨_, (run_labels labels).trans (run_nil _), rfl⟩

end Situation

/-- Reading succeeds exactly on the texts that are not empty and have a derivation, and gives the
expression derived. -/
theorem Expression.readChars_eq_ok {source : List Char} {e : Expression} :
    readChars source = .ok e ↔
      source ≠ [] ∧ ∃ d : WholeDerivation, d.yield = source ∧ d.expression = e := by
  constructor
  · intro h
    -- what the reader has gone over is spelled by where it stopped, and here that is all of it
    obtain ⟨read, hread, hspells⟩ : ∃ read, source = read ++ (Situation.initial.run source).2 ∧
        (Situation.initial.run source).1.Spells ([] ++ read) :=
      Situation.spells_initial.run
    obtain ⟨⟨s, rest⟩, hrun⟩ : ∃ r, Situation.initial.run source = r := ⟨_, rfl⟩
    rw [hrun] at hread hspells
    simp only [readChars, hrun] at h
    split at h
    · next hresult =>
      obtain rfl : source = read := by simpa using hread
      obtain ⟨d, hd, hexpr⟩ := hspells.result? hresult
      split at h
      · simp at h
      · next hne =>
        obtain rfl := Except.ok.inj h
        exact ⟨by simpa using hne, d, hd, hexpr⟩
    · simp at h
  · rintro ⟨hne, d, rfl, rfl⟩
    obtain ⟨s, hrun, hresult⟩ := Situation.run_whole d
    simp [readChars, hrun, hresult, hne]

/-- The derivation is one of what remains of the text without its blanks. -/
def WholeDerivation.IsOf (d : WholeDerivation) (text : Option String) : Prop :=
  d.yield = (withoutBlanks (text.getD "")).toList

theorem Expression.read_eq_ok {text : Option String} {e : Expression} :
    read text = .ok e ↔ withoutBlanks (text.getD "") ≠ "" ∧
      ∃ d : WholeDerivation, d.IsOf text ∧ d.expression = e := by
  have hne : withoutBlanks (text.getD "") ≠ "" ↔
      (withoutBlanks (text.getD "")).toList ≠ [] := by simp
  rw [hne]
  unfold WholeDerivation.IsOf
  rw [← readChars_eq_ok]
  simp only [read]
  split
  · next e' he => simp [he]
  · next fault position he => simp [he]

/-- The plan of a text that is read. -/
theorem Plan.ofText_of_read {text : Option String} {e : Expression}
    (h : Expression.read text = .ok e) :
    ∃ p, ofText text = .ok p ∧ p.root = (Branch.ofExpression ⟨0⟩ e).1 := by
  unfold ofText
  rw [h]
  exact ⟨_, rfl, rfl⟩

/-- Every text is read or refused: read exactly if something remains without its blanks and has a
derivation, which is then the only one and whose shape and labels are those of the tree. -/
theorem Plan.ofText_derivation (text : Option String) :
    ((∃ p, ofText text = .ok p) ↔
      withoutBlanks (text.getD "") ≠ "" ∧ ∃ d : WholeDerivation, d.IsOf text) ∧
    (¬(withoutBlanks (text.getD "") ≠ "" ∧ ∃ d : WholeDerivation, d.IsOf text) →
      ∃ error, ofText text = .error error) ∧
    (∀ d e : WholeDerivation, d.IsOf text → e.IsOf text → d = e) ∧
    ∀ (p : Plan) (d : WholeDerivation), ofText text = .ok p → d.IsOf text →
      p.root.Shows d.expression := by
  have hok : (∃ p, ofText text = .ok p) ↔ ∃ e, Expression.read text = .ok e := by
    unfold ofText
    cases Expression.read text <;> simp
  have hiff : (∃ p, ofText text = .ok p) ↔
      withoutBlanks (text.getD "") ≠ "" ∧ ∃ d : WholeDerivation, d.IsOf text := by
    simp only [hok, Expression.read_eq_ok]
    constructor
    · rintro ⟨e, hne, d, hd, -⟩
      exact ⟨hne, d, hd⟩
    · rintro ⟨hne, d, hd⟩
      exact ⟨d.expression, hne, d, hd, rfl⟩
  have hone : ∀ d e : WholeDerivation, d.IsOf text → e.IsOf text → d = e :=
    fun d e hd he => WholeDerivation.yield_injective (hd.trans he.symm)
  refine ⟨hiff, ?_, hone, ?_⟩
  · intro hno
    cases h : ofText text with
    | ok p => exact absurd (hiff.mp ⟨p, h⟩) hno
    | error error => exact ⟨error, rfl⟩
  · intro p d hp hd
    obtain ⟨hne, -⟩ := hiff.mp ⟨p, hp⟩
    obtain ⟨q, hq, hroot⟩ := ofText_of_read (Expression.read_eq_ok.mpr ⟨hne, d, hd, rfl⟩)
    obtain rfl : p = q := Except.ok.inj (hp.symm.trans hq)
    exact hroot ▸ Branch.shows_ofExpression ⟨0⟩ d.expression

/-- A contraction with a permutation on its left, written with blanks, a plus and all brackets, is
read; nothing at all is refused. -/
theorem Plan.ofText_derivation_spaced :
    (∃ p, ofText (some "[[a,b] -> [b,a]] + [c,a] -> [] ]") = .ok p ∧
      p.root.Shows (.contraction (.permutation (.leaf ["a", "b"]) ["b", "a"])
        (.leaf ["c", "a"]) [])) ∧
    ∃ error, ofText none = .error error := by
  constructor
  · obtain ⟨hiff, -, -, hshows⟩ := ofText_derivation (some "[[a,b] -> [b,a]] + [c,a] -> [] ]")
    have hd : (WholeDerivation.node
        (.contraction (.inner (.permutation
            (.leaf [.of "a" (by decide), .of "b" (by decide)])
            [.of "b" (by decide), .of "a" (by decide)])) true
          (.leaf [.of "c" (by decide), .of "a" (by decide)]) []) true).IsOf
        (some "[[a,b] -> [b,a]] + [c,a] -> [] ]") := by
      rw [WholeDerivation.IsOf, withoutBlanks_toList]
      decide
    obtain ⟨p, hp⟩ := hiff.mpr ⟨by decide, _, hd⟩
    exact ⟨p, hp, hshows p _ hp hd⟩
  · exact (ofText_derivation none).2.1 (by simp [withoutBlanks])

end Contraction
