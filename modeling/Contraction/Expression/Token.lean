/-!
# Tokens

The words that the text of an expression is made of. A comma before a bracket may be read as a comma
or, with the bracket, as the separator of two operands; which of the two it is depends on where it
stands, so a token is always read as one of a given kind.

`Token.readAs?_length` says that a token is never empty.
-/

namespace Contraction

/-- A character of a label. -/
def isLabelChar (c : Char) : Bool :=
  ('A' ≤ c && c ≤ 'Z') || ('a' ≤ c && c ≤ 'z') || ('0' ≤ c && c ≤ '9')

/-- A character that some token has. -/
def isTokenChar (c : Char) : Bool :=
  isLabelChar c || c == ',' || c == '+' || c == '-' || c == '[' || c == ']' || c == '>'

/-- A word of an expression. A separator is written with a comma or with a plus. -/
inductive Token where
  | opening
  | closing
  | comma
  | separator (plus : Bool)
  | arrow
  | label (name : String)
deriving DecidableEq, Repr

namespace Token

/-- The kinds of tokens. -/
inductive Kind where
  | opening
  | closing
  | comma
  | separator
  | arrow
  | label
deriving DecidableEq, Repr

def kind : Token → Kind
  | opening => .opening
  | closing => .closing
  | comma => .comma
  | separator _ => .separator
  | arrow => .arrow
  | label _ => .label

/-- The characters of a token. -/
def chars : Token → List Char
  | opening => ['[']
  | closing => [']']
  | comma => [',']
  | separator plus => [if plus then '+' else ',', '[']
  | arrow => ['-', '>', '[']
  | label name => name.toList

/-- A token of a kind at the front of a text, as long as it can be, and what follows it. -/
def readAs? : Kind → List Char → Option (Token × List Char)
  | .opening, '[' :: rest => some (opening, rest)
  | .closing, ']' :: rest => some (closing, rest)
  | .comma, ',' :: rest => some (comma, rest)
  | .separator, ',' :: '[' :: rest => some (separator false, rest)
  | .separator, '+' :: '[' :: rest => some (separator true, rest)
  | .arrow, '-' :: '>' :: '[' :: rest => some (arrow, rest)
  | .label, c :: rest =>
    if isLabelChar c then
      some (label (String.ofList (c :: rest.takeWhile isLabelChar)), rest.dropWhile isLabelChar)
    else none
  | _, _ => none

theorem readAs?_chars {k : Kind} {text rest : List Char} {t : Token}
    (h : readAs? k text = some (t, rest)) : text = t.chars ++ rest := by
  unfold readAs? at h
  split at h <;> simp at h <;> try (obtain ⟨rfl, rfl⟩ := h; simp [chars])
  obtain ⟨-, rfl, rfl⟩ := h
  simp [chars]

theorem readAs?_kind {k : Kind} {text rest : List Char} {t : Token}
    (h : readAs? k text = some (t, rest)) : t.kind = k := by
  unfold readAs? at h
  split at h <;> simp at h <;> try (obtain ⟨rfl, -⟩ := h; rfl)
  obtain ⟨-, rfl, -⟩ := h
  rfl

theorem chars_ne_nil {k : Kind} {text rest : List Char} {t : Token}
    (h : readAs? k text = some (t, rest)) : t.chars ≠ [] := by
  unfold readAs? at h
  split at h <;> simp at h <;> try (obtain ⟨rfl, -⟩ := h; simp [chars])
  obtain ⟨-, rfl, -⟩ := h
  simp [chars]

theorem readAs?_length {k : Kind} {text rest : List Char} {t : Token}
    (h : readAs? k text = some (t, rest)) : rest.length < text.length := by
  have := List.length_pos_iff.mpr (chars_ne_nil h)
  rw [readAs?_chars h, List.length_append]
  omega

end Token

end Contraction
