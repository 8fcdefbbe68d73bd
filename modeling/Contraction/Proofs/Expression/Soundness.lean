import Contraction.Expression.Situation
import Contraction.Proofs.Expression.Grammar

/-!
# What is read is derived

A situation says what has been read to come to it: `Situation.Spells` gives the texts that lead
there, made of derivations for the operands that are complete and of the pieces around them. A token
that leads on takes a text of one situation to a text of the next (`Spells.shift`), so what a reader
has gone over is a text of the situation in which it stops (`Spells.run`).
-/

namespace Contraction

/-- The text that has begun a node and, of two operands, its left one. -/
def Frame.Spells : Frame → List Char → Prop
  | left, text => text = ['[']
  | right first, text => ∃ (d : Derivation .operand) (plus : Bool), d.expression = first ∧
      text = '[' :: d.yield ++ Derivation.separator plus

/-- The text that has begun some nodes, the innermost of which comes first in the list and last in
the text. -/
def Frame.SpellAll : List Frame → List Char → Prop
  | [], text => text = []
  | frame :: frames, text => ∃ before here, text = before ++ here ∧ SpellAll frames before ∧
      frame.Spells here

/-- The text of a node up to where the labels of its result begin; an operand begins with them. -/
def Site.Spells : Site → List Char → Prop
  | operand, text => text = []
  | result left none, text => ∃ d : Derivation .operand, d.expression = left ∧
      text = '[' :: d.yield ++ ['-', '>', '[']
  | result left (some right), text => ∃ (d : Derivation .operand) (plus : Bool)
      (e : Derivation .operand), d.expression = left ∧ e.expression = right ∧
      text = '[' :: d.yield ++ Derivation.separator plus ++ e.yield ++ ['-', '>', '[']

/-- The text of what is read last. -/
def Focus.Spells : Focus → List Char → Prop
  | start site, text => site.Spells text
  | labels site names, text => ∃ before words, site.Spells before ∧ words ≠ [] ∧
      names = words.map Word.name ∧ text = before ++ Word.listYield words
  | comma site names, text => ∃ before words, site.Spells before ∧ words ≠ [] ∧
      names = words.map Word.name ∧ text = before ++ Word.listYield words ++ [',']
  | operand e, text => ∃ d : Derivation .operand, d.expression = e ∧ text = d.yield
  | node e, text => ∃ d : Derivation .node, d.expression = e ∧ text = d.yield
  | closed e, text => (∃ d : Derivation .node, d.expression = e ∧ text = d.yield ++ [']']) ∨
      ∃ words, .leaf (words.map Word.name) = e ∧ text = Word.listYield words ++ [']']

/-- The text leads to the situation. -/
def Situation.Spells (s : Situation) (text : List Char) : Prop :=
  ∃ before here, text = before ++ here ∧ Frame.SpellAll s.frames before ∧ s.focus.Spells here

/-! ## Tokens -/

/-- A token of a text is made of the characters of its kind. -/
def Token.IsSpelled : Token → Prop
  | label name => name.toList ≠ [] ∧ ∀ c ∈ name.toList, isLabelChar c = true
  | _ => True

theorem Token.readAs?_isSpelled {k : Kind} {text rest : List Char} {t : Token}
    (h : readAs? k text = some (t, rest)) : t.IsSpelled := by
  have hlabel : ∀ c cs, isLabelChar c = true →
      IsSpelled (.label (String.ofList (c :: List.takeWhile isLabelChar cs))) := by
    intro c cs hc
    refine ⟨by simp, ?_⟩
    intro x hx
    rw [String.toList_ofList] at hx
    rcases List.mem_cons.mp hx with rfl | hx
    · exact hc
    · exact List.all_eq_true.mp List.all_takeWhile x hx
  unfold readAs? at h
  split at h
  case h_7 c cs =>
    split at h
    · next hc =>
      obtain ⟨rfl, -⟩ := Prod.mk.inj (Option.some.inj h)
      exact hlabel c cs hc
    · simp at h
  case h_8 => simp at h
  all_goals
    obtain ⟨rfl, -⟩ := Prod.mk.inj (Option.some.inj h)
    trivial

theorem Word.listYield_append_singleton {words : List Word} (h : words ≠ []) (w : Word) :
    listYield (words ++ [w]) = listYield words ++ ',' :: w.chars := by
  cases words with
  | nil => exact absurd rfl h
  | cons v words => simp [listYield, moreYield]

namespace Situation

/-! ## One token -/

theorem spells_closeLabels {frames : List Frame} {site : Site} {before here : List Char}
    (words : List Word) (hf : Frame.SpellAll frames before) (hs : site.Spells here) :
    (closeLabels frames site (words.map Word.name)).Spells
      (before ++ (here ++ Word.listYield words ++ [']'])) := by
  -- a closed list is an operand inside of a node, and the whole text outside of any
  cases site with
  | operand =>
    obtain rfl : here = [] := hs
    cases frames with
    | nil => exact ⟨before, _, rfl, hf, Or.inr ⟨words, rfl, rfl⟩⟩
    | cons frame frames => exact ⟨before, _, rfl, hf, .leaf words, rfl, rfl⟩
  | result left right =>
    refine ⟨before, _, rfl, hf, ?_⟩
    cases right with
    | none =>
      obtain ⟨d, rfl, rfl⟩ := hs
      exact ⟨.permutation d words, rfl, by simp [Derivation.yield, Derivation.resultYield]⟩
    | some right =>
      obtain ⟨d, plus, e, rfl, rfl, rfl⟩ := hs
      exact ⟨.contraction d plus e words, rfl, by simp [Derivation.yield, Derivation.resultYield]⟩

variable {frames : List Frame} {site : Site} {names : List String} {e : Expression}
  {next : Situation} {before here : List Char} {t : Token}

theorem shift_start (hf : Frame.SpellAll frames before) (hh : site.Spells here)
    (ht : t.IsSpelled) (hs : shift ⟨frames, .start site⟩ t = some next) :
    next.Spells (before ++ (here ++ t.chars)) := by
  cases t with
  | opening =>
    cases site with
    | operand =>
      obtain rfl : here = [] := hh
      obtain rfl := Option.some.inj hs
      exact ⟨before ++ ['['], [], by simp [Token.chars], ⟨before, _, rfl, hf, rfl⟩, rfl⟩
    | result left right => simp [shift] at hs
  | label name =>
    obtain rfl : ⟨frames, .labels site [name]⟩ = next := by cases site <;> exact Option.some.inj hs
    refine ⟨before, _, rfl, hf, here, [⟨name, ht.1, ht.2⟩], hh, by simp, rfl, ?_⟩
    simp [Word.listYield, Word.moreYield, Word.chars, Token.chars]
  | closing =>
    obtain rfl : closeLabels frames site [] = next := by cases site <;> exact Option.some.inj hs
    simpa [Word.listYield, Token.chars] using spells_closeLabels [] hf hh
  | comma => cases site <;> simp [shift] at hs
  | separator plus => cases site <;> simp [shift] at hs
  | arrow => cases site <;> simp [shift] at hs

theorem shift_labels (hf : Frame.SpellAll frames before)
    (hh : (Focus.labels site names).Spells here)
    (hs : shift ⟨frames, .labels site names⟩ t = some next) :
    next.Spells (before ++ (here ++ t.chars)) := by
  obtain ⟨front, words, hsite, hne, rfl, rfl⟩ := hh
  cases t with
  | comma =>
    obtain rfl := Option.some.inj hs
    exact ⟨before, _, rfl, hf, front, words, hsite, hne, rfl, rfl⟩
  | closing =>
    obtain rfl := Option.some.inj hs
    exact spells_closeLabels words hf hsite
  | _ => simp [shift] at hs

theorem shift_comma (hf : Frame.SpellAll frames before)
    (hh : (Focus.comma site names).Spells here) (ht : t.IsSpelled)
    (hs : shift ⟨frames, .comma site names⟩ t = some next) :
    next.Spells (before ++ (here ++ t.chars)) := by
  obtain ⟨front, words, hsite, hne, rfl, rfl⟩ := hh
  cases t with
  | label name =>
    obtain rfl := Option.some.inj hs
    refine ⟨before, _, rfl, hf, front, words ++ [⟨name, ht.1, ht.2⟩], hsite, by simp,
      by simp, ?_⟩
    rw [Word.listYield_append_singleton hne]
    simp [Word.chars, Token.chars]
  | _ => simp [shift] at hs

theorem shift_operand (hf : Frame.SpellAll frames before) (hh : (Focus.operand e).Spells here)
    (hs : shift ⟨frames, .operand e⟩ t = some next) :
    next.Spells (before ++ (here ++ t.chars)) := by
  obtain ⟨d, rfl, rfl⟩ := hh
  cases frames with
  | nil => cases t <;> simp [shift] at hs
  | cons frame frames =>
    obtain ⟨outer, inner, rfl, hall, hframe⟩ := hf
    cases frame with
    | left =>
      obtain rfl : inner = ['['] := hframe
      cases t with
      | separator plus =>
        obtain rfl := Option.some.inj hs
        refine ⟨_, [], (List.append_nil _).symm, ⟨outer, _, ?_, hall, d, plus, rfl, rfl⟩, rfl⟩
        simp [Token.chars, Derivation.separator]
      | arrow =>
        obtain rfl := Option.some.inj hs
        refine ⟨outer, _, ?_, hall, d, rfl, rfl⟩
        simp [Token.chars]
      | _ => simp [shift] at hs
    | right first =>
      obtain ⟨c, plus, rfl, rfl⟩ := hframe
      cases t with
      | arrow =>
        obtain rfl := Option.some.inj hs
        refine ⟨outer, _, ?_, hall, c, plus, d, rfl, rfl, rfl⟩
        simp [Token.chars]
      | _ => simp [shift] at hs

theorem shift_node (hf : Frame.SpellAll frames before) (hh : (Focus.node e).Spells here)
    (hs : shift ⟨frames, .node e⟩ t = some next) : next.Spells (before ++ (here ++ t.chars)) := by
  obtain ⟨d, rfl, rfl⟩ := hh
  cases t with
  | closing =>
    cases frames with
    | nil =>
      obtain rfl := Option.some.inj hs
      exact ⟨before, _, rfl, hf, Or.inl ⟨d, rfl, rfl⟩⟩
    | cons frame frames =>
      obtain rfl := Option.some.inj hs
      exact ⟨before, _, rfl, hf, .inner d, rfl, rfl⟩
  | _ => cases frames <;> simp [shift] at hs

/-- A token that leads on takes a text of one situation to a text of the next. -/
theorem Spells.shift {s : Situation} {text : List Char} (h : s.Spells text) (ht : t.IsSpelled)
    (hs : s.shift t = some next) : next.Spells (text ++ t.chars) := by
  obtain ⟨frames, focus⟩ := s
  obtain ⟨before, here, rfl, hf, hh⟩ := h
  rw [List.append_assoc]
  cases focus with
  | start site => exact shift_start hf hh ht hs
  | labels site names => exact shift_labels hf hh hs
  | comma site names => exact shift_comma hf hh ht hs
  | operand e => exact shift_operand hf hh hs
  | node e => exact shift_node hf hh hs
  | closed e => cases t <;> simp [Situation.shift] at hs

/-! ## A whole run -/

theorem spells_initial : initial.Spells [] :=
  ⟨[], [], rfl, rfl, rfl⟩

/-- What a reader has gone over leads to the situation in which it stops. -/
theorem Spells.run {s : Situation} {before text : List Char} (h : s.Spells before) :
    ∃ read, text = read ++ (s.run text).2 ∧ (s.run text).1.Spells (before ++ read) := by
  fun_induction Situation.run s text generalizing before with
  | case1 s text hn => exact ⟨[], rfl, by simpa using h⟩
  | case2 s text t rest hn hs => exact ⟨[], rfl, by simpa using h⟩
  | case3 s text t rest hn next hs ih =>
    have hr := (next?_readAs? hn).2
    obtain ⟨read, hread, hspells⟩ := ih (h.shift (Token.readAs?_isSpelled hr) hs)
    refine ⟨t.chars ++ read, ?_, by simpa using hspells⟩
    rw [Token.readAs?_chars hr, List.append_assoc, ← hread]

/-- Where the text may end, what has been read has a derivation. -/
theorem Spells.result? {s : Situation} {text : List Char} {e : Expression} (h : s.Spells text)
    (hr : s.result? = some e) :
    ∃ d : WholeDerivation, d.yield = text ∧ d.expression = e := by
  obtain ⟨frames, focus⟩ := s
  obtain ⟨before, here, rfl, hf, hh⟩ := h
  unfold Situation.result? at hr
  split at hr
  · next hs =>
    obtain ⟨rfl, rfl⟩ := Situation.mk.inj hs
    obtain rfl : before = [] := hf
    obtain rfl : here = [] := hh
    obtain rfl := Option.some.inj hr
    exact ⟨.leaf [] false, rfl, rfl⟩
  · next names hs =>
    obtain ⟨rfl, rfl⟩ := Situation.mk.inj hs
    obtain rfl : before = [] := hf
    obtain ⟨front, words, hsite, -, rfl, rfl⟩ := hh
    obtain rfl : front = [] := hsite
    obtain rfl := Option.some.inj hr
    exact ⟨.leaf words false, by simp [WholeDerivation.yield, WholeDerivation.closing], rfl⟩
  · next node hs =>
    obtain ⟨rfl, rfl⟩ := Situation.mk.inj hs
    obtain rfl : before = [] := hf
    obtain ⟨d, rfl, rfl⟩ := hh
    obtain rfl := Option.some.inj hr
    exact ⟨.node d false, by simp [WholeDerivation.yield, WholeDerivation.closing], rfl⟩
  · next whole hs =>
    obtain ⟨rfl, rfl⟩ := Situation.mk.inj hs
    obtain rfl : before = [] := hf
    obtain rfl := Option.some.inj hr
    rcases hh with ⟨d, rfl, rfl⟩ | ⟨words, rfl, rfl⟩
    · exact ⟨.node d true, rfl, rfl⟩
    · exact ⟨.leaf words true, rfl, rfl⟩
  · simp at hr

end Situation

end Contraction
