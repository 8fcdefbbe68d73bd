import Contraction.Proofs.Expression.Acceptance
import Contraction.Proofs.Expression.Soundness

/-!
# Sequences of tokens

A derivation is also a sequence of tokens, whose characters are its text. A situation shifts tokens
one after the other, apart from any text, and the main statement of this module is that it gets on
from the beginning exactly along the beginnings of derivations (`begins_iff`).

One direction follows the derivation. The other needs that a situation which has been come to can
always be brought to an end (`IsProper.canEnd`), and that tokens which are shifted can be told from
their characters (`shiftAll_inj`): there is a derivation with the text of the completed sequence,
and so its tokens are those of the sequence.

* `Derivation.tokens`, `WholeDerivation.tokens` — the tokens of a derivation
* `Begins` — the beginnings of what the grammar accepts
* `Situation.shiftAll` — going on with several tokens
-/

namespace Contraction

/-! ## The tokens of a derivation -/

namespace Word

def token (w : Word) : Token :=
  .label w.name

/-- Words with a comma in front of each. -/
def moreTokens (words : List Word) : List Token :=
  words.flatMap fun w => [.comma, w.token]

/-- Words with commas between them; there may be none. -/
def listTokens : List Word → List Token
  | [] => []
  | first :: more => first.token :: moreTokens more

theorem flatMap_chars_moreTokens (words : List Word) :
    (moreTokens words).flatMap Token.chars = moreYield words := by
  induction words with
  | nil => rfl
  | cons w words ih =>
    show (Token.comma :: w.token :: moreTokens words).flatMap Token.chars = _
    rw [List.flatMap_cons, List.flatMap_cons, ih]
    simp [moreYield, token, Token.chars, chars]

theorem flatMap_chars_listTokens (words : List Word) :
    (listTokens words).flatMap Token.chars = listYield words := by
  cases words with
  | nil => rfl
  | cons w words =>
    rw [listTokens, List.flatMap_cons, flatMap_chars_moreTokens]
    rfl

end Word

namespace Derivation

/-- The arrow and the labels of the result. -/
def resultTokens (labels : List Word) : List Token :=
  .arrow :: Word.listTokens labels ++ [.closing]

/-- The tokens that are derived. -/
def tokens {symbol : Nonterminal} : Derivation symbol → List Token
  | permutation operand labels => .opening :: operand.tokens ++ resultTokens labels
  | contraction left plus right labels =>
    .opening :: left.tokens ++ .separator plus :: right.tokens ++ resultTokens labels
  | inner node => node.tokens ++ [.closing]
  | leaf labels => Word.listTokens labels ++ [.closing]

theorem flatMap_chars_resultTokens (labels : List Word) :
    (resultTokens labels).flatMap Token.chars = resultYield labels := by
  simp [resultTokens, resultYield, Word.flatMap_chars_listTokens, Token.chars]

/-- The characters of the tokens are the text. -/
theorem flatMap_chars_tokens {symbol : Nonterminal} (d : Derivation symbol) :
    d.tokens.flatMap Token.chars = d.yield := by
  induction d with
  | permutation operand labels ih =>
    simp [tokens, yield, ih, flatMap_chars_resultTokens, Token.chars]
  | contraction left plus right labels ihl ihr =>
    simp [tokens, yield, ihl, ihr, flatMap_chars_resultTokens, Token.chars, separator]
  | inner node ih => simp [tokens, yield, ih, Token.chars]
  | leaf labels => simp [tokens, yield, Word.flatMap_chars_listTokens, Token.chars]

end Derivation

namespace WholeDerivation

/-- The closing bracket, if it is there. -/
def closingTokens (closed : Bool) : List Token :=
  if closed then [.closing] else []

/-- The tokens that are derived. -/
def tokens : WholeDerivation → List Token
  | node n closed => n.tokens ++ closingTokens closed
  | leaf labels closed => Word.listTokens labels ++ closingTokens closed

theorem flatMap_chars_tokens (d : WholeDerivation) : d.tokens.flatMap Token.chars = d.yield := by
  have hclosing (closed : Bool) :
      (closingTokens closed).flatMap Token.chars = closing closed := by
    cases closed <;> rfl
  cases d with
  | node n closed => rw [tokens, List.flatMap_append, n.flatMap_chars_tokens, hclosing, yield]
  | leaf labels closed =>
    rw [tokens, List.flatMap_append, Word.flatMap_chars_listTokens, hclosing, yield]

end WholeDerivation

/-- The tokens are the first ones of a text that the grammar accepts. -/
def Begins (ts : List Token) : Prop :=
  ∃ d : WholeDerivation, d.yield ≠ [] ∧ ts <+: d.tokens

/-! ## Tokens that are spelled -/

theorem Token.IsSpelled.chars_ne_nil {t : Token} (h : t.IsSpelled) : t.chars ≠ [] := by
  cases t with
  | label name => exact h.1
  | _ => simp [chars]

theorem Token.isSpelled_label : (label "a").IsSpelled :=
  ⟨by decide, List.all_eq_true.mp (by decide)⟩

/-- There is a token of every kind. -/
theorem Token.exists_isSpelled (k : Kind) : ∃ t : Token, t.kind = k ∧ t.IsSpelled := by
  cases k with
  | opening => exact ⟨.opening, rfl, trivial⟩
  | closing => exact ⟨.closing, rfl, trivial⟩
  | comma => exact ⟨.comma, rfl, trivial⟩
  | separator => exact ⟨.separator false, rfl, trivial⟩
  | arrow => exact ⟨.arrow, rfl, trivial⟩
  | label => exact ⟨.label "a", rfl, isSpelled_label⟩

theorem Word.isSpelled_token (w : Word) : w.token.IsSpelled :=
  ⟨w.toList_ne_nil, w.isLabelChar_of_mem⟩

theorem Word.isSpelled_listTokens (words : List Word) : ∀ t ∈ listTokens words, t.IsSpelled := by
  have hmore (words : List Word) : ∀ t ∈ moreTokens words, t.IsSpelled := by
    intro t ht
    obtain ⟨w, -, hw⟩ := List.mem_flatMap.mp ht
    rcases List.mem_cons.mp hw with rfl | hw
    · trivial
    · exact List.mem_singleton.mp hw ▸ w.isSpelled_token
  cases words with
  | nil => simp [listTokens]
  | cons w words => exact List.forall_mem_cons.mpr ⟨w.isSpelled_token, hmore words⟩

theorem Derivation.isSpelled_resultTokens (labels : List Word) :
    ∀ t ∈ resultTokens labels, t.IsSpelled := by
  simp only [resultTokens, List.cons_append, List.forall_mem_cons, List.forall_mem_append]
  exact ⟨trivial, Word.isSpelled_listTokens labels, trivial, by simp⟩

theorem Derivation.isSpelled_tokens {symbol : Nonterminal} (d : Derivation symbol) :
    ∀ t ∈ d.tokens, t.IsSpelled := by
  induction d with
  | permutation operand labels ih =>
    simp only [tokens, List.cons_append, List.forall_mem_cons, List.forall_mem_append]
    exact ⟨trivial, ih, isSpelled_resultTokens labels⟩
  | contraction left plus right labels ihl ihr =>
    simp only [tokens, List.cons_append, List.append_assoc, List.forall_mem_cons,
      List.forall_mem_append]
    exact ⟨trivial, ihl, trivial, ihr, isSpelled_resultTokens labels⟩
  | inner node ih =>
    simp only [tokens, List.forall_mem_append, List.forall_mem_singleton]
    exact ⟨ih, trivial⟩
  | leaf labels =>
    simp only [tokens, List.forall_mem_append, List.forall_mem_singleton]
    exact ⟨Word.isSpelled_listTokens labels, trivial⟩

theorem WholeDerivation.isSpelled_tokens (d : WholeDerivation) : ∀ t ∈ d.tokens, t.IsSpelled := by
  have hclosing (closed : Bool) : ∀ t ∈ closingTokens closed, t.IsSpelled := by
    cases closed <;> simp [closingTokens, Token.IsSpelled]
  cases d with
  | node n closed => exact List.forall_mem_append.mpr ⟨n.isSpelled_tokens, hclosing closed⟩
  | leaf labels closed =>
    exact List.forall_mem_append.mpr ⟨Word.isSpelled_listTokens labels, hclosing closed⟩

/-! ## Shifting several tokens -/

namespace Situation

variable {s next last : Situation} {t : Token} {ts us : List Token} {frames : List Frame}
  {site : Site} {names : List String}

/-- Going on with several tokens. -/
def shiftAll (s : Situation) : List Token → Option Situation
  | [] => some s
  | t :: ts => (s.shift t).bind fun next => next.shiftAll ts

theorem shiftAll_append (s : Situation) (ts us : List Token) :
    s.shiftAll (ts ++ us) = (s.shiftAll ts).bind fun next => next.shiftAll us := by
  induction ts generalizing s with
  | nil => rfl
  | cons t ts ih =>
    rw [List.cons_append, shiftAll, shiftAll, Option.bind_assoc]
    exact Option.bind_congr fun next _ => ih next

theorem shiftAll_append_of_eq (h : s.shiftAll ts = some next) :
    s.shiftAll (ts ++ us) = next.shiftAll us := by
  rw [shiftAll_append, h, Option.bind_some]

theorem shiftAll_cons_eq_some :
    s.shiftAll (t :: ts) = some last ↔ ∃ next, s.shift t = some next ∧
      next.shiftAll ts = some last :=
  Option.bind_eq_some_iff

/-! ### Along a derivation -/

theorem shiftAll_moreTokens (words : List Word) :
    shiftAll ⟨frames, .labels site names⟩ (Word.moreTokens words) =
      some ⟨frames, .labels site (names ++ words.map Word.name)⟩ := by
  induction words generalizing names with
  | nil => simp [Word.moreTokens, shiftAll]
  | cons w words ih =>
    show shiftAll ⟨frames, .labels site (names ++ [w.name])⟩ (Word.moreTokens words) = _
    rw [ih, List.append_assoc, List.map_cons, List.singleton_append]

/-- A closed list of labels. -/
theorem shiftAll_labels (words : List Word) :
    shiftAll ⟨frames, .start site⟩ (Word.listTokens words ++ [.closing]) =
      some (closeLabels frames site (words.map Word.name)) := by
  cases words with
  | nil => cases site <;> rfl
  | cons w words =>
    have hfirst : shift ⟨frames, .start site⟩ w.token = some ⟨frames, .labels site [w.name]⟩ := by
      cases site <;> rfl
    rw [Word.listTokens, List.cons_append, shiftAll, hfirst, Option.bind_some,
      shiftAll_append_of_eq (shiftAll_moreTokens words)]
    rfl

theorem shiftAll_resultTokens {frame : Frame} {e : Expression} (labels : List Word) (site : Site)
    (harrow : shift ⟨frame :: frames, .operand e⟩ .arrow = some ⟨frames, .start site⟩)
    (hsite : site ≠ .operand) :
    shiftAll ⟨frame :: frames, .operand e⟩ (Derivation.resultTokens labels) =
      some ⟨frames, .node (site.close (labels.map Word.name))⟩ := by
  rw [Derivation.resultTokens, List.cons_append, shiftAll, harrow, Option.bind_some,
    shiftAll_labels]
  cases site with
  | operand => exact absurd rfl hsite
  | result left right => rfl

/-- The tokens of a node lead on wherever an operand may begin, and those of an operand inside of a
node. -/
theorem shiftAll_derivation {symbol : Nonterminal} (d : Derivation symbol) (frames : List Frame)
    (hf : symbol = .operand → frames ≠ []) :
    shiftAll ⟨frames, .start .operand⟩ d.tokens = some ⟨frames, symbol.focus d.expression⟩ := by
  induction d generalizing frames with
  | permutation operand labels ih =>
    show shiftAll ⟨.left :: frames, .start .operand⟩
      (operand.tokens ++ Derivation.resultTokens labels) = _
    rw [shiftAll_append_of_eq (ih (.left :: frames) (by simp))]
    exact shiftAll_resultTokens labels (.result operand.expression none) rfl (by simp)
  | contraction left plus right labels ihl ihr =>
    simp only [Derivation.tokens, List.cons_append, List.append_assoc]
    show shiftAll ⟨.left :: frames, .start .operand⟩ _ = _
    rw [shiftAll_append_of_eq (ihl (.left :: frames) (by simp))]
    show shiftAll ⟨.right left.expression :: frames, .start .operand⟩ _ = _
    rw [shiftAll_append_of_eq (ihr (.right left.expression :: frames) (by simp))]
    exact shiftAll_resultTokens labels (.result left.expression (some right.expression)) rfl
      (by simp)
  | inner node ih =>
    rw [Derivation.tokens, shiftAll_append_of_eq (ih frames (by simp))]
    obtain ⟨frame, frames, rfl⟩ := List.exists_cons_of_ne_nil (hf rfl)
    rfl
  | leaf labels =>
    rw [Derivation.tokens, shiftAll_labels]
    obtain ⟨frame, frames, rfl⟩ := List.exists_cons_of_ne_nil (hf rfl)
    rfl

theorem shiftAll_openLabels (words : List Word) :
    ∃ s, initial.shiftAll (Word.listTokens words) = some s ∧
      s.result? = some (.leaf (words.map Word.name)) := by
  cases words with
  | nil => exact ⟨initial, rfl, rfl⟩
  | cons w words =>
    have hmore : initial.shiftAll (Word.listTokens (w :: words)) =
        shiftAll ⟨[], .labels .operand [w.name]⟩ (Word.moreTokens words) := rfl
    exact ⟨_, hmore.trans (shiftAll_moreTokens words), rfl⟩

/-- The tokens of a whole lead to where the text may end. -/
theorem shiftAll_whole (d : WholeDerivation) :
    ∃ s, initial.shiftAll d.tokens = some s ∧ s.result? = some d.expression := by
  cases d with
  | node n closed =>
    have hnode : initial.shiftAll n.tokens = some ⟨[], .node n.expression⟩ :=
      shiftAll_derivation n [] (by simp)
    cases closed with
    | false => exact ⟨_, (shiftAll_append_of_eq hnode).trans rfl, rfl⟩
    | true => exact ⟨_, (shiftAll_append_of_eq hnode).trans rfl, rfl⟩
  | leaf labels closed =>
    cases closed with
    | false =>
      rw [WholeDerivation.tokens, WholeDerivation.closingTokens, if_neg (by simp),
        List.append_nil]
      exact shiftAll_openLabels labels
    | true => exact ⟨_, shiftAll_labels labels, rfl⟩

/-! ### To an end -/

/-- An operand is read inside of a node, and the whole is closed outside of any. -/
def IsProper : Situation → Prop
  | ⟨frames, .operand _⟩ => frames ≠ []
  | ⟨frames, .closed _⟩ => frames = []
  | _ => True

theorem isProper_initial : initial.IsProper :=
  trivial

theorem isProper_closeLabels (frames : List Frame) (site : Site) (names : List String) :
    (closeLabels frames site names).IsProper := by
  cases site with
  | operand => cases frames <;> simp [closeLabels, IsProper]
  | result left right => trivial

theorem IsProper.shift (h : s.shift t = some next) : next.IsProper := by
  unfold Situation.shift at h
  split at h
  case h_12 => cases h
  all_goals
    obtain rfl := Option.some.inj h
    first
    | trivial
    | exact isProper_closeLabels ..

theorem isProper_of_shiftAll (hs : s.IsProper) (h : s.shiftAll ts = some last) : last.IsProper := by
  induction ts generalizing s with
  | nil =>
    obtain rfl := Option.some.inj h
    exact hs
  | cons t ts ih =>
    obtain ⟨next, hnext, hlast⟩ := shiftAll_cons_eq_some.mp h
    exact ih (IsProper.shift hnext) hlast

/-- Some tokens lead from here to where the text may end. -/
def CanEnd (s : Situation) : Prop :=
  ∃ more last, (∀ t ∈ more, t.IsSpelled) ∧ s.shiftAll more = some last ∧ last.result?.isSome

theorem CanEnd.of_shift (ht : t.IsSpelled) (hs : s.shift t = some next) (h : next.CanEnd) :
    s.CanEnd := by
  obtain ⟨more, last, hmore, hlast, hend⟩ := h
  exact ⟨t :: more, last, List.forall_mem_cons.mpr ⟨ht, hmore⟩,
    shiftAll_cons_eq_some.mpr ⟨next, hs, hlast⟩, hend⟩

/-- Behind an operand the labels of the node may follow at once, and there may be none. -/
theorem canEnd_operand (hnode : ∀ e, CanEnd ⟨frames, .node e⟩) (frame : Frame) (e : Expression) :
    CanEnd ⟨frame :: frames, .operand e⟩ := by
  cases frame with
  | left =>
    exact .of_shift (t := .arrow) trivial rfl (.of_shift (t := .closing) trivial rfl (hnode _))
  | right first =>
    exact .of_shift (t := .arrow) trivial rfl (.of_shift (t := .closing) trivial rfl (hnode _))

theorem canEnd_node (frames : List Frame) (e : Expression) : CanEnd ⟨frames, .node e⟩ := by
  induction frames generalizing e with
  | nil => exact ⟨[], _, by simp, rfl, rfl⟩
  | cons frame frames ih => exact .of_shift (t := .closing) trivial rfl (canEnd_operand ih frame e)

theorem canEnd_closeLabels (frames : List Frame) (site : Site) (names : List String) :
    (closeLabels frames site names).CanEnd := by
  cases site with
  | operand =>
    cases frames with
    | nil => exact ⟨[], _, by simp, rfl, rfl⟩
    | cons frame frames => exact canEnd_operand (canEnd_node frames) frame _
  | result left right => exact canEnd_node frames _

theorem canEnd_labels (frames : List Frame) (site : Site) (names : List String) :
    CanEnd ⟨frames, .labels site names⟩ :=
  .of_shift (t := .closing) trivial rfl (canEnd_closeLabels frames site names)

/-- Whatever has been read can be completed. -/
theorem IsProper.canEnd (h : s.IsProper) : s.CanEnd := by
  obtain ⟨frames, focus⟩ := s
  cases focus with
  | start site =>
    have hs : Situation.shift ⟨frames, .start site⟩ .closing =
        some (closeLabels frames site []) := by
      cases site <;> rfl
    exact .of_shift (t := .closing) trivial hs (canEnd_closeLabels frames site [])
  | labels site names => exact canEnd_labels frames site names
  | comma site names =>
    exact .of_shift Token.isSpelled_label rfl (canEnd_labels frames site _)
  | operand e =>
    obtain ⟨frame, frames, rfl⟩ := List.exists_cons_of_ne_nil h
    exact canEnd_operand (canEnd_node frames) frame e
  | node e => exact canEnd_node frames e
  | closed e =>
    obtain rfl : frames = [] := h
    exact ⟨[], _, by simp, rfl, rfl⟩

/-! ### From their characters -/

/-- Behind a label stands a comma or a bracket. -/
theorem endsLabel_of_shift_label {name : String} (hs : s.shift (.label name) = some next)
    (h : next.shiftAll ts = some last) : EndsLabel (ts.flatMap Token.chars) := by
  obtain ⟨frames, site, names, rfl⟩ : ∃ frames site names, next = ⟨frames, .labels site names⟩ := by
    obtain ⟨frames, focus⟩ := s
    cases focus with
    | start site => exact ⟨frames, site, [name], by cases site <;> exact (Option.some.inj hs).symm⟩
    | comma site names => exact ⟨frames, site, names ++ [name], (Option.some.inj hs).symm⟩
    | operand e => rcases frames with _ | ⟨_ | _, frames⟩ <;> simp [shift] at hs
    | node e => cases frames <;> simp [shift] at hs
    | _ => simp [shift] at hs
  cases ts with
  | nil => exact endsLabel_nil
  | cons t ts =>
    obtain ⟨_, ht, -⟩ := shiftAll_cons_eq_some.mp h
    cases t with
    | comma => exact endsLabel_cons (by decide)
    | closing => exact endsLabel_closing _
    | _ => simp [shift] at ht

/-- The first of some tokens that are shifted is read from their characters. -/
theorem readAs?_of_shiftAll (ht : t.IsSpelled) (h : s.shiftAll (t :: ts) = some last) :
    Token.readAs? t.kind ((t :: ts).flatMap Token.chars) =
      some (t, ts.flatMap Token.chars) := by
  obtain ⟨next, hnext, hlast⟩ := shiftAll_cons_eq_some.mp h
  cases t with
  | label name =>
    exact Token.readAs?_label ⟨name, ht.1, ht.2⟩ (endsLabel_of_shift_label hnext hlast)
  | separator plus => cases plus <;> rfl
  | _ => rfl

/-- Tokens that are shifted can be told from their characters. -/
theorem shiftAll_inj {other : Situation} (hts : ∀ t ∈ ts, t.IsSpelled) (hus : ∀ t ∈ us, t.IsSpelled)
    (ht : s.shiftAll ts = some last) (hu : s.shiftAll us = some other)
    (h : ts.flatMap Token.chars = us.flatMap Token.chars) : ts = us := by
  induction ts generalizing s us with
  | nil =>
    cases us with
    | nil => rfl
    | cons u us =>
      obtain ⟨hu, -⟩ := List.forall_mem_cons.mp hus
      have hnil : u.chars = [] := (List.append_eq_nil_iff.mp h.symm).1
      exact absurd hnil hu.chars_ne_nil
  | cons t ts ih =>
    obtain ⟨htt, hts⟩ := List.forall_mem_cons.mp hts
    cases us with
    | nil =>
      have hnil : t.chars = [] := (List.append_eq_nil_iff.mp h).1
      exact absurd hnil htt.chars_ne_nil
    | cons u us =>
      obtain ⟨huu, husTail⟩ := List.forall_mem_cons.mp hus
      have hreadt := readAs?_of_shiftAll htt ht
      have hreadu := readAs?_of_shiftAll huu hu
      rw [← h] at hreadu
      obtain ⟨next, hnext, hlast⟩ := shiftAll_cons_eq_some.mp ht
      obtain ⟨next', hnext', hlast'⟩ := shiftAll_cons_eq_some.mp hu
      -- both are what comes next, and only one token does
      have hone := (next?_of_readAs? ((shift_isSome s t).mp (by simp [hnext])) hreadt).symm.trans
        (next?_of_readAs? ((shift_isSome s u).mp (by simp [hnext'])) hreadu)
      obtain ⟨rfl, hrest⟩ := Prod.mk.inj (Option.some.inj hone)
      obtain rfl := Option.some.inj (hnext.symm.trans hnext')
      rw [ih hts husTail hlast hlast' hrest]

/-- What has been shifted is a text of the situation. -/
theorem Spells.shiftAll {text : List Char} (h : s.Spells text) (hts : ∀ t ∈ ts, t.IsSpelled)
    (hs : s.shiftAll ts = some last) : last.Spells (text ++ ts.flatMap Token.chars) := by
  induction ts generalizing s text with
  | nil =>
    obtain rfl := Option.some.inj hs
    simpa using h
  | cons t ts ih =>
    obtain ⟨ht, hts⟩ := List.forall_mem_cons.mp hts
    obtain ⟨next, hnext, hlast⟩ := shiftAll_cons_eq_some.mp hs
    have hnext := ih (h.shift ht hnext) hts hlast
    rwa [List.append_assoc] at hnext

/-- Where the text may end, the tokens are those of a derivation. -/
theorem exists_tokens (hts : ∀ t ∈ ts, t.IsSpelled) (hs : initial.shiftAll ts = some last)
    (hend : last.result?.isSome) : ∃ d : WholeDerivation, d.tokens = ts := by
  obtain ⟨e, he⟩ := Option.isSome_iff_exists.mp hend
  obtain ⟨d, hd, -⟩ := (spells_initial.shiftAll hts hs).result? he
  obtain ⟨other, hother, -⟩ := shiftAll_whole d
  exact ⟨d, shiftAll_inj d.isSpelled_tokens hts hother hs (d.flatMap_chars_tokens.trans hd)⟩

end Situation

/-! ## What begins an accepted text -/

/-- A situation gets on from the beginning exactly along the beginnings of accepted texts. -/
theorem begins_iff {ts : List Token} (hts : ∀ t ∈ ts, t.IsSpelled) :
    Begins ts ↔ ∃ s, Situation.initial.shiftAll ts = some s := by
  constructor
  · rintro ⟨d, -, more, hmore⟩
    obtain ⟨last, hlast, -⟩ := Situation.shiftAll_whole d
    rw [← hmore, Situation.shiftAll_append] at hlast
    obtain ⟨s, hs, -⟩ := Option.bind_eq_some_iff.mp hlast
    exact ⟨s, hs⟩
  · rintro ⟨s, hs⟩
    obtain ⟨more, last, hspelled, hlast, hend⟩ :=
      (Situation.isProper_of_shiftAll Situation.isProper_initial hs).canEnd
    have hall : Situation.initial.shiftAll (ts ++ more) = some last :=
      (Situation.shiftAll_append_of_eq hs).trans hlast
    obtain ⟨d, hd⟩ :=
      Situation.exists_tokens (List.forall_mem_append.mpr ⟨hts, hspelled⟩) hall hend
    by_cases hnil : d.yield = []
    · -- nothing at all is no text, but then the tokens begin any other one
      have htokens : d.tokens.flatMap Token.chars = [] := d.flatMap_chars_tokens.trans hnil
      have hempty : ts = [] := by
        rw [hd, List.flatMap_eq_nil_iff] at htokens
        refine List.eq_nil_iff_forall_not_mem.mpr fun t ht => ?_
        exact (hts t ht).chars_ne_nil (htokens t (List.mem_append_left more ht))
      subst hempty
      have hclosed : (WholeDerivation.leaf [] true).yield ≠ [] := by decide
      exact ⟨.leaf [] true, hclosed, List.nil_prefix⟩
    · exact ⟨d, hnil, more, hd.symm⟩

end Contraction
