import Contraction.Proofs.Expression.Words

/-!
# The normal form of a text

Texts that mean the same may differ in three ways: in blanks, in a plus where another has a comma,
and in the last bracket, which may be missing. The normal form has no blanks, commas alone and no
last bracket, and it is what the tree that is read is written as (`Plan.text_eq_normalForm`). So
reading forgets nothing else.

The last bracket is told from the others by counting. What a derivation means is written with as
many closing brackets as opening ones (`Derivation.isBalanced_written`), so a text that is read has
one more exactly if the last bracket is there.
-/

namespace Contraction

open Text

/-- The comma for a plus, and any other character for itself. -/
def commaForPlus (c : Char) : Char :=
  if c = '+' then ',' else c

/-- The text without its last character, if it has one closing bracket more than opening ones. -/
def dropExcess (text : List Char) : List Char :=
  if text.count ']' = text.count '[' + 1 then text.dropLast else text

/-- The text without blanks, with commas for pluses, and without a closing bracket that is one too
many. -/
def normalForm (text : String) : String :=
  String.ofList (dropExcess ((withoutBlanks text).toList.map commaForPlus))

/-! ## Commas for pluses -/

theorem Word.map_listYield (words : List Word) :
    (listYield words).map commaForPlus = listYield words := by
  have hplus : ∀ c ∈ listYield words, commaForPlus c = c := fun c hc =>
    if_neg fun h => not_mem_listYield (by decide) (by decide) (h ▸ hc)
  rw [List.map_congr_left hplus, List.map_id']

/-- The bracket that closes a symbol. -/
def Nonterminal.closing : Nonterminal → List Char
  | node => []
  | operand => [']']

namespace Derivation

theorem map_separator (plus : Bool) : (separator plus).map commaForPlus = [',', '['] := by
  cases plus <;> rfl

theorem map_resultYield (labels : List Word) :
    (resultYield labels).map commaForPlus =
      ['-', '>'] ++ bracketLabels (labels.map Word.name) := by
  simp only [resultYield, List.map_append, Word.map_listYield, bracketLabels,
    Branch.joinLabels_names]
  rfl

/-- With commas for pluses, the text that is derived is the written form of what it means; an
operand has a bracket behind it. -/
theorem map_yield {symbol : Nonterminal} (d : Derivation symbol) :
    d.yield.map commaForPlus = d.expression.written ++ symbol.closing := by
  have hopen : commaForPlus '[' = '[' := rfl
  have hclose : commaForPlus ']' = ']' := rfl
  induction d with
  | permutation operand labels ih =>
    simp [yield, expression, Expression.written, Nonterminal.closing, map_resultYield, ih, hopen]
  | contraction left plus right labels ihl ihr =>
    simp [yield, expression, Expression.written, Nonterminal.closing, map_resultYield,
      map_separator, ihl, ihr, hopen]
  | inner node ih => simp [yield, expression, Nonterminal.closing, ih, hclose]
  | leaf labels =>
    simp [yield, expression, Expression.written, Nonterminal.closing, Word.map_listYield,
      Branch.joinLabels_names, hclose]

end Derivation

/-! ## Brackets in pairs -/

/-- As many brackets are closed as opened. -/
def IsBalanced (text : List Char) : Prop :=
  text.count ']' = text.count '['

theorem IsBalanced.append {text more : List Char} (h : IsBalanced text) (hmore : IsBalanced more) :
    IsBalanced (text ++ more) := by
  rw [IsBalanced, List.count_append, List.count_append, h, hmore]

theorem IsBalanced.bracketed {text : List Char} (h : IsBalanced text) :
    IsBalanced ('[' :: text ++ [']']) := by
  simpa [IsBalanced, List.count_append] using h

theorem Word.isBalanced_listYield (words : List Word) : IsBalanced (listYield words) := by
  have hclose : ']' ∉ listYield words := not_mem_listYield (by decide) (by decide)
  have hopen : '[' ∉ listYield words := not_mem_listYield (by decide) (by decide)
  rw [IsBalanced, List.count_eq_zero.mpr hclose, List.count_eq_zero.mpr hopen]

/-- The arrow and the labels of the result. -/
theorem Word.isBalanced_result (words : List Word) :
    IsBalanced (['-', '>'] ++ bracketLabels (words.map Word.name)) := by
  have harrow : IsBalanced ['-', '>'] := rfl
  rw [bracketLabels, Branch.joinLabels_names]
  exact harrow.append (isBalanced_listYield words).bracketed

/-- What is derived is written with as many closing brackets as opening ones. -/
theorem Derivation.isBalanced_written {symbol : Nonterminal} (d : Derivation symbol) :
    IsBalanced d.expression.written := by
  induction d with
  | permutation operand labels ih =>
    have hnode := ih.bracketed.append (Word.isBalanced_result labels)
    simpa [expression, Expression.written] using hnode
  | contraction left plus right labels ihl ihr =>
    have hcomma : IsBalanced [','] := rfl
    have hnode := ihl.bracketed.append <| hcomma.append <|
      ihr.bracketed.append (Word.isBalanced_result labels)
    simpa [expression, Expression.written] using hnode
  | inner node ih => exact ih
  | leaf labels =>
    rw [expression, Expression.written, Branch.joinLabels_names]
    exact Word.isBalanced_listYield labels

/-! ## The whole -/

namespace WholeDerivation

/-- A bracket behind a balanced text is one too many. -/
theorem dropExcess_append {text : List Char} (h : IsBalanced text) (closed : Bool) :
    dropExcess (text ++ closing closed) = text := by
  rw [IsBalanced] at h
  cases closed with
  | false => simp [dropExcess, closing, h]
  | true => simp [dropExcess, closing, h]

/-- With commas for pluses, a whole text is the written form of what it means, with or without a
bracket behind it. -/
theorem map_yield (d : WholeDerivation) :
    ∃ closed, d.yield.map commaForPlus = d.expression.written ++ closing closed := by
  have hclosing : ∀ closed, (closing closed).map commaForPlus = closing closed := by decide
  cases d with
  | node n closed =>
    refine ⟨closed, ?_⟩
    simp only [yield, List.map_append, n.map_yield, hclosing, Nonterminal.closing, List.append_nil,
      expression]
  | leaf labels closed =>
    refine ⟨closed, ?_⟩
    simp only [yield, List.map_append, Word.map_listYield, hclosing, expression,
      Expression.written, Branch.joinLabels_names]

theorem isBalanced_written (d : WholeDerivation) : IsBalanced d.expression.written := by
  cases d with
  | node n closed => exact n.isBalanced_written
  | leaf labels closed => exact (Derivation.leaf labels).isBalanced_written

/-- The normal form is the written form of what the text means. -/
theorem normalForm_eq {d : WholeDerivation} {text : String} (h : d.IsOf (some text)) :
    normalForm text = d.expression.text := by
  obtain ⟨closed, hyield⟩ := d.map_yield
  rw [WholeDerivation.IsOf, Option.getD_some] at h
  rw [normalForm, ← h, hyield, dropExcess_append d.isBalanced_written, Expression.text]

end WholeDerivation

namespace Plan

variable {b c : Branch}

/-- Branches that can be written are alike if they are written alike. -/
theorem alike_of_textOf_eq (hb : b.IsWritable) (hc : c.IsWritable) (hroot : b ≠ .absent)
    (hother : c ≠ .absent) (h : textOf b = textOf c) : b.Alike c := by
  obtain ⟨d, hd, hdyield⟩ := hb.exists_derivation hroot
  obtain ⟨e, he, heyield⟩ := hc.exists_derivation hother
  have hwritten : d.expression.written = e.expression.written := by
    rw [textOf_of_shows hd, textOf_of_shows he] at h
    exact String.ofList_injective (Except.ok.inj h)
  -- with the last bracket the texts are those of operands, which have one derivation
  have hyield : d.yield ++ [] = e.yield ++ [] := by rw [hdyield, heyield, hwritten]
  obtain ⟨rfl, -⟩ := d.yield_append_inj e hyield
  exact hd.alike he

/-- A text that is read is written back as its normal form. So two texts that are read give trees of
one shape with the same labels at every place exactly if they have the same normal form. -/
theorem text_eq_normalForm (s : String) (p : Plan) (h : ofText (some s) = .ok p) :
    p.text = .ok (normalForm s) ∧
      ∀ (t : String) (q : Plan), ofText (some t) = .ok q →
        (q.root.Alike p.root ↔ normalForm t = normalForm s) := by
  have hall : ∀ (t : String) (q : Plan), ofText (some t) = .ok q →
      q.root ≠ .absent ∧ q.text = .ok (normalForm t) := by
    intro t q hq
    obtain ⟨hiff, -, -, hshows⟩ := ofText_derivation (some t)
    obtain ⟨-, d, hd⟩ := hiff.mp ⟨q, hq⟩
    have hroot := hshows q d hq hd
    exact ⟨hroot.ne_absent, by rw [text, textOf_of_shows hroot, WholeDerivation.normalForm_eq hd]⟩
  obtain ⟨hroot, htext⟩ := hall s p h
  refine ⟨htext, fun t q hq => ?_⟩
  obtain ⟨hother, hwritten⟩ := hall t q hq
  constructor
  · intro halike
    have hsame := textOf_congr halike
    exact Except.ok.inj (hwritten.symm.trans (hsame.trans htext))
  · intro hnormal
    refine alike_of_textOf_eq (isWritable_ofText hq) (isWritable_ofText h) hother hroot ?_
    exact (hwritten.trans (congrArg _ hnormal)).trans htext.symm

/-- Blanks, a plus and the last bracket make no difference to a tree, and the order of labels
does. -/
theorem text_eq_normalForm_spaced : ∃ p q other : Plan,
    ofText (some "[[a,b] -> [b,a]] + [c,a] -> [] ]") = .ok p ∧
      p.text = .ok "[[a,b]->[b,a]],[c,a]->[]" ∧
      ofText (some "[[a,b]->[b,a]],[c,a]->[]") = .ok q ∧ q.root.Alike p.root ∧
      ofText (some "[[a,b]->[b,a]],[a,c]->[]") = .ok other ∧ ¬other.root.Alike p.root := by
  have hread (s : String) (h : (ofText (some s)).toOption.any (fun _ => true) = true) :
      ∃ p, ofText (some s) = .ok p := (exists_ok_of_any h).imp fun _ hp => hp.1
  obtain ⟨p, hp⟩ := hread "[[a,b] -> [b,a]] + [c,a] -> [] ]" (by decide +kernel)
  obtain ⟨q, hq⟩ := hread "[[a,b]->[b,a]],[c,a]->[]" (by decide +kernel)
  obtain ⟨other, hother⟩ := hread "[[a,b]->[b,a]],[a,c]->[]" (by decide +kernel)
  have hnormal : normalForm "[[a,b] -> [b,a]] + [c,a] -> [] ]" = "[[a,b]->[b,a]],[c,a]->[]" := by
    decide +kernel
  obtain ⟨htext, hsame⟩ := text_eq_normalForm _ p hp
  rw [hnormal] at htext hsame
  refine ⟨p, q, other, hp, htext, hq, (hsame _ q hq).mpr (by decide +kernel), hother, ?_⟩
  exact fun halike => absurd ((hsame _ other hother).mp halike) (by decide +kernel)

end Plan

end Contraction
