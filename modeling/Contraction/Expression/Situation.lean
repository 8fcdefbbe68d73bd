import Contraction.Expression
import Contraction.Expression.Token

/-!
# Situations

Where a reader of an expression stands: which nodes it has begun, and what it has read last.
`expects` says which kinds of tokens may follow, `shift` goes on with one of them, and `result?` is
the expression read if the text may end here. `shift_isSome` ties the first two together.

The brackets of the grammar overlap: the bracket that opens a node also opens its left operand, the
bracket of a separator opens the right one, and the bracket of the arrow opens the labels of the
result. An operand is closed by a bracket of its own behind the one that closes its labels.
-/

namespace Contraction

/-- A node that has been begun: the operand being read is its left one, or its right one. -/
inductive Frame where
  | left
  | right (first : Expression)
deriving DecidableEq, Repr

/-- What a list of labels belongs to: a tensor that is given, or the node whose operands have been
read. -/
inductive Site where
  | operand
  | result (left : Expression) (right : Option Expression)
deriving DecidableEq, Repr

/-- The node that the labels complete. -/
def Site.close : Site → List String → Expression
  | operand, labels => .leaf labels
  | result left none, labels => .permutation left labels
  | result left (some right), labels => .contraction left right labels

/-- What has been read last. -/
inductive Focus where
  /-- A list of labels begins, or at the site of an operand a node may. -/
  | start (site : Site)
  /-- Labels, the last of which has just been read. -/
  | labels (site : Site) (names : List String)
  /-- Labels and a comma. -/
  | comma (site : Site) (names : List String)
  /-- An operand with its closing bracket. -/
  | operand (e : Expression)
  /-- A node with the closing bracket of its labels. -/
  | node (e : Expression)
  /-- The whole with a closing bracket of its own. -/
  | closed (e : Expression)
deriving DecidableEq, Repr

/-- Where a reader stands: the nodes begun, the innermost first, and what was read last. -/
structure Situation where
  frames : List Frame
  focus : Focus
deriving DecidableEq, Repr

namespace Situation

/-- Nothing has been read. -/
def initial : Situation :=
  ⟨[], .start .operand⟩

/-- The kinds of tokens that may follow. -/
def expects : Situation → List Token.Kind
  | ⟨_, .start .operand⟩ => [.opening, .label, .closing]
  | ⟨_, .start (.result ..)⟩ => [.label, .closing]
  | ⟨_, .labels ..⟩ => [.comma, .closing]
  | ⟨_, .comma ..⟩ => [.label]
  | ⟨.left :: _, .operand _⟩ => [.separator, .arrow]
  | ⟨.right _ :: _, .operand _⟩ => [.arrow]
  | ⟨[], .operand _⟩ => []
  | ⟨_, .node _⟩ => [.closing]
  | ⟨_, .closed _⟩ => []

/-- A list of labels is closed. The labels of an operand close it, and those of the whole close the
whole; those of a result close its node. -/
def closeLabels (frames : List Frame) (site : Site) (names : List String) : Situation :=
  match site, frames with
  | .operand, [] => ⟨[], .closed (.leaf names)⟩
  | .operand, frames => ⟨frames, .operand (.leaf names)⟩
  | site, frames => ⟨frames, .node (site.close names)⟩

/-- Going on with a token. -/
def shift : Situation → Token → Option Situation
  | ⟨frames, .start .operand⟩, .opening => some ⟨.left :: frames, .start .operand⟩
  | ⟨frames, .start site⟩, .label name => some ⟨frames, .labels site [name]⟩
  | ⟨frames, .start site⟩, .closing => some (closeLabels frames site [])
  | ⟨frames, .labels site names⟩, .comma => some ⟨frames, .comma site names⟩
  | ⟨frames, .labels site names⟩, .closing => some (closeLabels frames site names)
  | ⟨frames, .comma site names⟩, .label name => some ⟨frames, .labels site (names ++ [name])⟩
  | ⟨.left :: frames, .operand e⟩, .separator _ => some ⟨.right e :: frames, .start .operand⟩
  | ⟨.left :: frames, .operand e⟩, .arrow => some ⟨frames, .start (.result e none)⟩
  | ⟨.right first :: frames, .operand e⟩, .arrow => some ⟨frames, .start (.result first (some e))⟩
  | ⟨[], .node e⟩, .closing => some ⟨[], .closed e⟩
  | ⟨frames, .node e⟩, .closing => some ⟨frames, .operand e⟩
  | _, _ => none

/-- The expression read, if the text may end here. -/
def result? : Situation → Option Expression
  | ⟨[], .start .operand⟩ => some (.leaf [])
  | ⟨[], .labels .operand names⟩ => some (.leaf names)
  | ⟨[], .node e⟩ => some e
  | ⟨[], .closed e⟩ => some e
  | _ => none

theorem shift_isSome (s : Situation) (t : Token) :
    (s.shift t).isSome ↔ t.kind ∈ s.expects := by
  obtain ⟨frames, focus⟩ := s
  cases focus with
  | start site => cases site <;> cases t <;> simp [shift, expects, Token.kind]
  | labels site names => cases t <;> simp [shift, expects, Token.kind]
  | comma site names => cases t <;> simp [shift, expects, Token.kind]
  | operand e =>
    rcases frames with _ | ⟨frame, frames⟩
    · cases t <;> simp [shift, expects]
    · cases frame <;> cases t <;> simp [shift, expects, Token.kind]
  | node e => cases frames <;> cases t <;> simp [shift, expects, Token.kind]
  | closed e => cases t <;> simp [shift, expects]

/-- The token at the front of a text that may follow here, and what follows it. -/
def next? (s : Situation) (text : List Char) : Option (Token × List Char) :=
  s.expects.findSome? (Token.readAs? · text)

theorem next?_readAs? {s : Situation} {text rest : List Char} {t : Token}
    (h : s.next? text = some (t, rest)) :
    t.kind ∈ s.expects ∧ Token.readAs? t.kind text = some (t, rest) := by
  obtain ⟨k, hk, hr⟩ := List.exists_of_findSome?_eq_some h
  have := Token.readAs?_kind hr
  subst this
  exact ⟨hk, hr⟩

theorem next?_length {s : Situation} {text rest : List Char} {t : Token}
    (h : s.next? text = some (t, rest)) : rest.length < text.length :=
  Token.readAs?_length (next?_readAs? h).2

/-- Reads tokens as long as one may follow, and gives the situation and the text that is left. -/
def run (s : Situation) (text : List Char) : Situation × List Char :=
  match _h : s.next? text with
  | none => (s, text)
  | some (t, rest) =>
    match s.shift t with
    | none => (s, text)
    | some next => run next rest
termination_by text.length
decreasing_by exact next?_length _h

end Situation

end Contraction
