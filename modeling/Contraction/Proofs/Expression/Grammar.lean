import Contraction.Expression.Token
import Contraction.Expression

/-!
# The grammar of expressions

The bracket notation as a context-free grammar, apart from any reader of it. A derivation is a tree
of the rules that have been used, `yield` is the text at its leaves, and `expression` is what the
text means. The main statement is that a text has at most one derivation
(`WholeDerivation.yield_injective`).

What carries it is that nodes and operands are prefix codes: where one of them begins, its text ends
at one place only (`Derivation.yield_append_inj`). The whole is no prefix code, for its closing
bracket may be missing.
-/

namespace Contraction

/-- A label as the grammar writes it: letters and digits, at least one. -/
structure Word where
  name : String
  toList_ne_nil : name.toList ≠ []
  isLabelChar_of_mem : ∀ c ∈ name.toList, isLabelChar c = true

namespace Word

/-- The word of a name that is seen to be one. -/
def of (name : String) (h : name.toList ≠ [] ∧ name.toList.all isLabelChar = true) : Word :=
  ⟨name, h.1, List.all_eq_true.mp h.2⟩

def chars (w : Word) : List Char :=
  w.name.toList

theorem chars_ne_nil (w : Word) : w.chars ≠ [] :=
  w.toList_ne_nil

theorem all_isLabelChar (w : Word) : ∀ c ∈ w.chars, isLabelChar c = true :=
  w.isLabelChar_of_mem

theorem ext {w v : Word} (h : w.chars = v.chars) : w = v := by
  obtain ⟨name, _, _⟩ := w
  obtain ⟨other, _, _⟩ := v
  obtain rfl : name = other := String.toList_inj.mp h
  rfl

/-- Words with a comma in front of each. -/
def moreYield (words : List Word) : List Char :=
  words.flatMap fun w => ',' :: w.chars

/-- Words with commas between them; there may be none. -/
def listYield : List Word → List Char
  | [] => []
  | first :: more => first.chars ++ moreYield more

end Word

/-- The symbols of the grammar below the whole. -/
inductive Nonterminal where
  | node
  | operand

/-- The derivations of the two symbols. A node has an arrow, with one operand or two in front of it;
an operand is a node or a list of labels, closed by a bracket. -/
inductive Derivation : Nonterminal → Type where
  | permutation (operand : Derivation .operand) (labels : List Word) : Derivation .node
  | contraction (left : Derivation .operand) (plus : Bool) (right : Derivation .operand)
      (labels : List Word) : Derivation .node
  | inner (node : Derivation .node) : Derivation .operand
  | leaf (labels : List Word) : Derivation .operand

namespace Derivation

/-- The separator of two operands. -/
def separator (plus : Bool) : List Char :=
  [if plus then '+' else ',', '[']

/-- The arrow and the labels of the result. -/
def resultYield (labels : List Word) : List Char :=
  ['-', '>', '['] ++ Word.listYield labels ++ [']']

/-- The text that is derived. -/
def yield {symbol : Nonterminal} : Derivation symbol → List Char
  | permutation operand labels => '[' :: operand.yield ++ resultYield labels
  | contraction left plus right labels =>
    '[' :: left.yield ++ separator plus ++ right.yield ++ resultYield labels
  | inner node => node.yield ++ [']']
  | leaf labels => Word.listYield labels ++ [']']

/-- The expression that is derived. -/
def expression {symbol : Nonterminal} : Derivation symbol → Expression
  | permutation operand labels => .permutation operand.expression (labels.map Word.name)
  | contraction left _ right labels =>
    .contraction left.expression right.expression (labels.map Word.name)
  | inner node => node.expression
  | leaf labels => .leaf (labels.map Word.name)

end Derivation

/-- The derivations of a whole text: a node or a list of labels, with or without a closing bracket
of its own. -/
inductive WholeDerivation where
  | node (node : Derivation .node) (closed : Bool)
  | leaf (labels : List Word) (closed : Bool)

namespace WholeDerivation

/-- The closing bracket, if it is there. -/
def closing (closed : Bool) : List Char :=
  if closed then [']'] else []

/-- The text that is derived. -/
def yield : WholeDerivation → List Char
  | node n closed => n.yield ++ closing closed
  | leaf labels closed => Word.listYield labels ++ closing closed

/-- The expression that is derived. -/
def expression : WholeDerivation → Expression
  | node n _ => n.expression
  | leaf labels _ => .leaf (labels.map Word.name)

end WholeDerivation

/-! ## Where labels end -/

/-- The text does not go on with a character of a label. -/
def EndsLabel (text : List Char) : Prop :=
  ∀ c ∈ text.head?, isLabelChar c = false

theorem endsLabel_nil : EndsLabel [] := by
  simp [EndsLabel]

theorem endsLabel_cons {c : Char} {text : List Char} (h : isLabelChar c = false) :
    EndsLabel (c :: text) := by
  simp [EndsLabel, h]

theorem endsLabel_closing (text : List Char) : EndsLabel (']' :: text) :=
  endsLabel_cons (by decide)

namespace Word

variable {w v : Word} {words others : List Word} {text rest other : List Char}

theorem takeWhile_append (w : Word) (h : EndsLabel rest) :
    (w.chars ++ rest).takeWhile isLabelChar = w.chars := by
  rw [List.takeWhile_append_of_pos w.all_isLabelChar]
  cases rest with
  | nil => simp
  | cons c rest => simp [h c rfl]

theorem dropWhile_append (w : Word) (h : EndsLabel rest) :
    (w.chars ++ rest).dropWhile isLabelChar = rest := by
  rw [List.dropWhile_append_of_pos w.all_isLabelChar]
  cases rest with
  | nil => simp
  | cons c rest => simp [h c rfl]

theorem append_inj (hr : EndsLabel rest) (ho : EndsLabel other)
    (h : w.chars ++ rest = v.chars ++ other) : w = v ∧ rest = other := by
  constructor
  · apply ext
    rw [← w.takeWhile_append hr, h, v.takeWhile_append ho]
  · rw [← w.dropWhile_append hr, h, v.dropWhile_append ho]

/-- A label begins with one of its characters. -/
theorem append_ne_cons {c : Char} (hc : isLabelChar c = false) : w.chars ++ text ≠ c :: rest := by
  obtain ⟨x, xs, hx⟩ := List.exists_cons_of_ne_nil w.chars_ne_nil
  intro h
  have hlabel := w.all_isLabelChar x (by simp [hx])
  simp only [hx, List.cons_append, List.cons.injEq] at h
  rw [h.1, hc] at hlabel
  simp at hlabel

theorem endsLabel_moreYield (words : List Word) (h : EndsLabel rest) :
    EndsLabel (moreYield words ++ rest) := by
  cases words with
  | nil => exact h
  | cons w words => exact endsLabel_cons (by decide)

theorem moreYield_append_inj
    (h : moreYield words ++ ']' :: rest = moreYield others ++ ']' :: other) :
    words = others ∧ rest = other := by
  induction words generalizing others with
  | nil =>
    cases others with
    | nil => simpa [moreYield] using h
    | cons v others => simp [moreYield] at h
  | cons w words ih =>
    cases others with
    | nil => simp [moreYield] at h
    | cons v others =>
      simp only [moreYield, List.flatMap_cons, List.cons_append, List.append_assoc,
        List.cons.injEq, true_and] at h
      obtain ⟨rfl, htail⟩ := append_inj (endsLabel_moreYield words (endsLabel_closing rest))
        (endsLabel_moreYield others (endsLabel_closing other)) h
      obtain ⟨rfl, rfl⟩ := ih htail
      exact ⟨rfl, rfl⟩

/-- A list of labels that a bracket closes ends at one place only. -/
theorem listYield_append_inj
    (h : listYield words ++ ']' :: rest = listYield others ++ ']' :: other) :
    words = others ∧ rest = other := by
  cases words with
  | nil =>
    cases others with
    | nil => simpa [listYield] using h
    | cons v others =>
      simp only [listYield, List.nil_append, List.append_assoc] at h
      exact absurd h.symm (append_ne_cons (by decide))
  | cons w words =>
    cases others with
    | nil =>
      simp only [listYield, List.nil_append, List.append_assoc] at h
      exact absurd h (append_ne_cons (by decide))
    | cons v others =>
      simp only [listYield, List.append_assoc] at h
      obtain ⟨rfl, htail⟩ := append_inj (endsLabel_moreYield words (endsLabel_closing rest))
        (endsLabel_moreYield others (endsLabel_closing other)) h
      obtain ⟨rfl, rfl⟩ := moreYield_append_inj htail
      exact ⟨rfl, rfl⟩

/-- A list of labels does not begin like a node. -/
theorem listYield_append_ne (h : rest.head? ≠ some '[') :
    listYield words ++ rest ≠ '[' :: text := by
  cases words with
  | nil =>
    rintro rfl
    exact h rfl
  | cons w words =>
    rw [listYield, List.append_assoc]
    exact append_ne_cons (by decide)

theorem not_mem_listYield {c : Char} (hc : isLabelChar c = false) (hcomma : c ≠ ',') :
    c ∉ listYield words := by
  have hchars : ∀ w : Word, c ∉ w.chars := fun w h => by
    simp [w.all_isLabelChar c h] at hc
  cases words with
  | nil => simp [listYield]
  | cons w words => simp [listYield, moreYield, hchars, hcomma]

end Word

/-! ## Where nodes and operands end -/

namespace Derivation

theorem exists_yield_node (d : Derivation .node) : ∃ text, d.yield = '[' :: text := by
  cases d with
  | permutation operand labels => exact ⟨_, rfl⟩
  | contraction left plus right labels => exact ⟨_, rfl⟩

theorem resultYield_append_inj {labels others : List Word} {rest other : List Char}
    (h : resultYield labels ++ rest = resultYield others ++ other) :
    labels = others ∧ rest = other := by
  simp only [resultYield, List.append_assoc, List.cons_append, List.nil_append, List.cons.injEq,
    true_and] at h
  exact Word.listYield_append_inj h

theorem separator_ne_result {plus : Bool} {labels : List Word} {rest other : List Char} :
    separator plus ++ rest ≠ resultYield labels ++ other := by
  cases plus <;> simp [separator, resultYield]

theorem separator_append_inj {plus other : Bool} {rest others : List Char}
    (h : separator plus ++ rest = separator other ++ others) : plus = other ∧ rest = others := by
  cases plus <;> cases other <;> simp_all [separator]

/-- A node or an operand ends at one place only, and has one derivation. -/
theorem yield_append_inj {symbol : Nonterminal} (d e : Derivation symbol) {rest other : List Char}
    (h : d.yield ++ rest = e.yield ++ other) : d = e ∧ rest = other := by
  -- the first operand ends at one place, and what stands there tells the two rules apart
  induction d generalizing rest other with
  | permutation operand labels ih =>
    cases e with
    | permutation operand' labels' =>
      simp only [yield, List.cons_append, List.append_assoc, List.cons.injEq, true_and] at h
      obtain ⟨rfl, htail⟩ := ih operand' h
      obtain ⟨rfl, rfl⟩ := resultYield_append_inj htail
      exact ⟨rfl, rfl⟩
    | contraction left plus right labels' =>
      simp only [yield, List.cons_append, List.append_assoc, List.cons.injEq, true_and] at h
      obtain ⟨rfl, htail⟩ := ih left h
      exact absurd htail.symm separator_ne_result
  | contraction left plus right labels ihl ihr =>
    cases e with
    | permutation operand labels' =>
      simp only [yield, List.cons_append, List.append_assoc, List.cons.injEq, true_and] at h
      obtain ⟨rfl, htail⟩ := ihl operand h
      exact absurd htail separator_ne_result
    | contraction left' plus' right' labels' =>
      simp only [yield, List.cons_append, List.append_assoc, List.cons.injEq, true_and] at h
      obtain ⟨rfl, hsep⟩ := ihl left' h
      obtain ⟨rfl, hright⟩ := separator_append_inj hsep
      obtain ⟨rfl, hresult⟩ := ihr right' hright
      obtain ⟨rfl, rfl⟩ := resultYield_append_inj hresult
      exact ⟨rfl, rfl⟩
  | inner node ih =>
    cases e with
    | inner node' =>
      simp only [yield, List.append_assoc] at h
      obtain ⟨rfl, htail⟩ := ih node' h
      exact ⟨rfl, by simpa using htail⟩
    | leaf labels =>
      obtain ⟨text, hnode⟩ := node.exists_yield_node
      simp only [yield, hnode, List.append_assoc, List.cons_append] at h
      exact absurd h.symm (Word.listYield_append_ne (by simp))
  | leaf labels =>
    cases e with
    | inner node =>
      obtain ⟨text, hnode⟩ := node.exists_yield_node
      simp only [yield, hnode, List.append_assoc, List.cons_append] at h
      exact absurd h (Word.listYield_append_ne (by simp))
    | leaf labels' =>
      simp only [yield, List.append_assoc] at h
      obtain ⟨rfl, rfl⟩ := Word.listYield_append_inj h
      exact ⟨rfl, rfl⟩

end Derivation

namespace WholeDerivation

theorem closing_inj {closed other : Bool} (h : closing closed = closing other) :
    closed = other := by
  cases closed <;> cases other <;> simp_all [closing]

/-- A list of labels is closed if there is a bracket. -/
theorem closing_mem_listYield (labels : List Word) (closed : Bool) :
    ']' ∈ Word.listYield labels ++ closing closed ↔ closed = true := by
  have hlabels : ']' ∉ Word.listYield labels := Word.not_mem_listYield (by decide) (by decide)
  cases closed <;> simp [closing, hlabels]

theorem leaf_inj {labels others : List Word} {closed other : Bool}
    (h : Word.listYield labels ++ closing closed = Word.listYield others ++ closing other) :
    labels = others ∧ closed = other := by
  have hclosed : closed = other := by
    rw [Bool.eq_iff_iff, ← closing_mem_listYield labels, h, closing_mem_listYield]
  subst hclosed
  -- an open list may end anywhere, but closing both lists brings them under the lemma above
  have hlist := List.append_cancel_right h
  exact ⟨(Word.listYield_append_inj (congrArg (· ++ [']']) hlist)).1, rfl⟩

theorem node_ne_leaf {n : Derivation .node} {labels : List Word} {closed other : Bool} :
    n.yield ++ closing closed ≠ Word.listYield labels ++ closing other := by
  obtain ⟨text, hnode⟩ := n.exists_yield_node
  rw [hnode]
  exact (Word.listYield_append_ne (by cases other <;> simp [closing])).symm

/-- A text has at most one derivation. -/
theorem yield_injective {d e : WholeDerivation} (h : d.yield = e.yield) : d = e := by
  cases d with
  | node n closed =>
    cases e with
    | node m other =>
      obtain ⟨rfl, htail⟩ := n.yield_append_inj m h
      rw [closing_inj htail]
    | leaf labels other => exact absurd h node_ne_leaf
  | leaf labels closed =>
    cases e with
    | node n other => exact absurd h.symm node_ne_leaf
    | leaf others other =>
      obtain ⟨rfl, rfl⟩ := leaf_inj h
      rfl

end WholeDerivation

end Contraction
