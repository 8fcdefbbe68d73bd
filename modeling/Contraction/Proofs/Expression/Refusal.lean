import Contraction.Proofs.Expression.Recognition
import Contraction.Proofs.Expression.TokenSequences

/-!
# Why a text is refused

A text that is no expression is refused at the end of the longest sequence of its tokens that begins
an accepted text, and for a reason that depends on the grammar alone: on what those tokens are, on
what may follow them in some accepted text, and on what stands there instead.

`Token.ReadAll` says which tokens a text begins with, `StopsAt` where it leaves the grammar, and
`refusalReason` what there is to say about it. None of them mentions a situation. A reader that
stops is where the text leaves the grammar (`Situation.exists_stopsAt`), and what the situation
expects is what may follow in the grammar (`Situation.canFollow_iff`); so the diagnosis is the
reason.
-/

namespace Contraction

open Text

/-! ## Accepted texts -/

/-- The text is not empty and has a derivation. -/
def IsAccepted (text : List Char) : Prop :=
  text ≠ [] ∧ ∃ d : WholeDerivation, d.yield = text

/-- Behind the tokens one of the kind may stand in an accepted text. -/
def CanFollow (ts : List Token) (k : Token.Kind) : Prop :=
  ∃ t : Token, t.kind = k ∧ Begins (ts ++ [t])

theorem Begins.isSpelled {ts : List Token} (h : Begins ts) : ∀ t ∈ ts, t.IsSpelled := by
  obtain ⟨d, -, hts⟩ := h
  exact fun t ht => d.isSpelled_tokens t (hts.subset ht)

namespace Token

/-- The text begins with the tokens, each of which is as long as it can be. -/
inductive ReadAll : List Char → List Token → List Char → Prop where
  | nil (text : List Char) : ReadAll text [] text
  | cons {text middle rest : List Char} {t : Token} {ts : List Token}
      (here : readAs? t.kind text = some (t, middle)) (more : ReadAll middle ts rest) :
      ReadAll text (t :: ts) rest

theorem ReadAll.eq_append {text rest : List Char} {ts : List Token} (h : ReadAll text ts rest) :
    text = ts.flatMap chars ++ rest := by
  induction h with
  | nil text => rfl
  | cons here more ih => rw [readAs?_chars here, ih, List.flatMap_cons, List.append_assoc]

theorem ReadAll.isSpelled {text rest : List Char} {ts : List Token} (h : ReadAll text ts rest) :
    ∀ t ∈ ts, t.IsSpelled := by
  induction h with
  | nil text => simp
  | cons here more ih => exact List.forall_mem_cons.mpr ⟨readAs?_isSpelled here, ih⟩

/-- A token that stands at the front of a text is read there, or a longer one of its kind. -/
theorem exists_readAs?_of_prefix {t : Token} {text : List Char} (ht : t.IsSpelled)
    (h : t.chars <+: text) : ∃ u rest, u.kind = t.kind ∧ readAs? t.kind text = some (u, rest) := by
  obtain ⟨more, rfl⟩ := h
  cases t with
  | label name =>
    obtain ⟨c, cs, hc⟩ := List.exists_cons_of_ne_nil ht.1
    have hlabel : isLabelChar c = true := ht.2 c (by simp [hc])
    refine ⟨_, _, ?_, by rw [chars, hc, List.cons_append, kind, readAs?, if_pos hlabel]⟩
    rfl
  | separator plus => cases plus <;> exact ⟨_, _, rfl, rfl⟩
  | _ => exact ⟨_, _, rfl, rfl⟩

end Token

/-- The text leaves the grammar behind some of its tokens: they begin an accepted text, and do not
with any of the tokens that stand there. -/
structure StopsAt (text : List Char) (ts : List Token) (rest : List Char) : Prop where
  readAll : Token.ReadAll text ts rest
  begins : Begins ts
  stuck : ∀ t : Token, t.IsSpelled → t.chars <+: rest → ¬Begins (ts ++ [t])

/-! ## The reason -/

open Classical in
/-- What there is to say of a text that leaves the grammar at a position, behind these tokens: the
first that applies. -/
noncomputable def refusalReason (source : List Char) (position : Nat) (ts : List Token) :
    ReadFault :=
  match source.drop position with
  | [] => .endOfInput
  | found :: rest =>
    if isTokenChar found = false then .invalidCharacter found
    else if IsAccepted (source.take position) then
      .extraCharacters (String.ofList (found :: rest))
    else if CanFollow ts .separator ∧ CanFollow ts .arrow then
      .expectedOperator (String.ofList ((found :: rest).take 2))
    else if CanFollow ts .arrow then .expectedArrow (String.ofList ((found :: rest).take 3))
    else if found = ']' ∧ CanFollow ts .label ∧ ¬CanFollow ts .closing then .expectedLabel
    else .invalidCharacter found

/-! ## Where a reader stops -/

namespace Situation

variable {s last : Situation} {text rest : List Char} {ts : List Token}

theorem exists_readAll (s : Situation) (text : List Char) :
    ∃ ts, Token.ReadAll text ts (s.run text).2 ∧ s.shiftAll ts = some (s.run text).1 ∧
      (s.run text).1.next? (s.run text).2 = none := by
  fun_induction Situation.run s text with
  | case1 s text hn => exact ⟨[], .nil text, rfl, hn⟩
  | case2 s text t rest hn hs =>
    have hsome := (shift_isSome s t).mpr (next?_readAs? hn).1
    simp [hs] at hsome
  | case3 s text t rest hn next hs ih =>
    obtain ⟨ts, hread, hlast, hnone⟩ := ih
    exact ⟨t :: ts, .cons (next?_readAs? hn).2 hread,
      shiftAll_cons_eq_some.mpr ⟨next, hs, hlast⟩, hnone⟩

/-- What is expected behind some tokens is what may follow them in the grammar. -/
theorem canFollow_iff (hts : ∀ t ∈ ts, t.IsSpelled) (hs : initial.shiftAll ts = some s)
    {k : Token.Kind} : CanFollow ts k ↔ k ∈ s.expects := by
  have hsingle (t : Token) : initial.shiftAll (ts ++ [t]) = s.shift t := by
    rw [shiftAll_append_of_eq hs]
    simp [shiftAll]
  constructor
  · rintro ⟨t, rfl, hbegins⟩
    obtain ⟨next, hnext⟩ := (begins_iff hbegins.isSpelled).mp hbegins
    rw [hsingle] at hnext
    exact (shift_isSome s t).mp (by simp [hnext])
  · intro hk
    obtain ⟨t, rfl, ht⟩ := Token.exists_isSpelled k
    obtain ⟨next, hnext⟩ := Option.isSome_iff_exists.mp ((shift_isSome s t).mpr hk)
    refine ⟨t, rfl, (begins_iff ?_).mpr ⟨next, (hsingle t).trans hnext⟩⟩
    exact List.forall_mem_append.mpr ⟨hts, by simpa using ht⟩

/-- The text may end here exactly if what has been shifted is accepted, or nothing has been. -/
theorem isAccepted_iff (hts : ∀ t ∈ ts, t.IsSpelled) (hs : initial.shiftAll ts = some s) :
    IsAccepted (ts.flatMap Token.chars) ↔ ts.flatMap Token.chars ≠ [] ∧ s.result?.isSome := by
  refine and_congr_right fun _ => ⟨?_, ?_⟩
  · rintro ⟨d, hd⟩
    obtain ⟨last, hlast, hresult⟩ := shiftAll_whole d
    obtain rfl : d.tokens = ts :=
      shiftAll_inj d.isSpelled_tokens hts hlast hs (d.flatMap_chars_tokens.trans hd)
    obtain rfl := Option.some.inj (hlast.symm.trans hs)
    simp [hresult]
  · intro hend
    obtain ⟨d, rfl⟩ := exists_tokens hts hs hend
    exact ⟨d, d.flatMap_chars_tokens.symm⟩

/-- A reader that is at the beginning stops where the text leaves the grammar. -/
theorem exists_stopsAt (text : List Char) :
    ∃ ts, StopsAt text ts (initial.run text).2 ∧
      initial.shiftAll ts = some (initial.run text).1 := by
  obtain ⟨ts, hread, hlast, hnone⟩ := exists_readAll initial text
  have hbegins : Begins ts := (begins_iff hread.isSpelled).mpr ⟨_, hlast⟩
  refine ⟨ts, ⟨hread, hbegins, ?_⟩, hlast⟩
  intro t ht hprefix hmore
  have hk := (canFollow_iff hread.isSpelled hlast).mp ⟨t, rfl, hmore⟩
  obtain ⟨u, rest, hkind, hr⟩ := Token.exists_readAs?_of_prefix ht hprefix
  rw [next?, List.findSome?_eq_none_iff] at hnone
  simp [hnone t.kind hk] at hr

/-- Tokens that are read and lead on are gone over. -/
theorem run_readAll (h : Token.ReadAll text ts rest) (hs : s.shiftAll ts = some last) :
    s.run text = last.run rest := by
  induction h generalizing s with
  | nil text =>
    obtain rfl := Option.some.inj hs
    rfl
  | cons here more ih =>
    obtain ⟨next, hnext, hlast⟩ := shiftAll_cons_eq_some.mp hs
    rw [run_token hnext here, ih hlast]

theorem run_of_next?_eq_none (h : s.next? text = none) : s.run text = (s, text) := by
  rw [run]
  split
  · rfl
  · next hn => simp [h] at hn

/-- Where a text leaves the grammar a reader stops. -/
theorem run_of_stopsAt (h : StopsAt text ts rest) :
    ∃ s, initial.shiftAll ts = some s ∧ initial.run text = (s, rest) := by
  obtain ⟨s, hs⟩ := (begins_iff h.begins.isSpelled).mp h.begins
  refine ⟨s, hs, (run_readAll h.readAll hs).trans (run_of_next?_eq_none ?_)⟩
  refine Option.eq_none_iff_forall_ne_some.mpr ?_
  rintro ⟨t, more⟩ hn
  obtain ⟨hk, hr⟩ := next?_readAs? hn
  have ht := Token.readAs?_isSpelled hr
  obtain ⟨next, hnext⟩ := Option.isSome_iff_exists.mp ((shift_isSome s t).mpr hk)
  have hall : initial.shiftAll (ts ++ [t]) = some next := by
    rw [shiftAll_append_of_eq hs, shiftAll, hnext]
    rfl
  refine h.stuck t ht ⟨more, (Token.readAs?_chars hr).symm⟩ ((begins_iff ?_).mpr ⟨next, hall⟩)
  exact List.forall_mem_append.mpr ⟨h.begins.isSpelled, by simpa using ht⟩

end Situation

/-- A text leaves the grammar at one place only. -/
theorem StopsAt.unique {text rest other : List Char} {ts us : List Token}
    (h : StopsAt text ts rest) (h' : StopsAt text us other) : ts = us ∧ rest = other := by
  obtain ⟨s, hs, hrun⟩ := Situation.run_of_stopsAt h
  obtain ⟨s', hs', hrun'⟩ := Situation.run_of_stopsAt h'
  obtain ⟨rfl, rfl⟩ := Prod.mk.inj (hrun.symm.trans hrun')
  have hchars : ts.flatMap Token.chars = us.flatMap Token.chars :=
    List.append_cancel_right (h.readAll.eq_append.symm.trans h'.readAll.eq_append)
  exact ⟨Situation.shiftAll_inj h.begins.isSpelled h'.begins.isSpelled hs hs' hchars, rfl⟩

/-- The diagnosis is the reason. -/
theorem Expression.diagnose_eq_refusalReason {source : List Char} {position : Nat} {ts : List Token}
    {s : Situation} (h : StopsAt source ts (source.drop position))
    (hs : Situation.initial.shiftAll ts = some s) :
    diagnose s (position == 0) (source.drop position) = refusalReason source position ts := by
  have htake : source.take position = ts.flatMap Token.chars := by
    have hsame : source.take position ++ source.drop position =
        ts.flatMap Token.chars ++ source.drop position := by
      rw [List.take_append_drop, ← h.readAll.eq_append]
    exact List.append_cancel_right hsame
  have hspelled := h.begins.isSpelled
  cases hdrop : source.drop position with
  | nil => simp only [diagnose, refusalReason, hdrop]
  | cons found rest =>
    have hstart : source.take position = [] ↔ position = 0 := by
      rw [List.take_eq_nil_iff, or_iff_left]
      rintro rfl
      simp at hdrop
    have haccepted : IsAccepted (source.take position) ↔ position ≠ 0 ∧ s.result?.isSome := by
      rw [htake, Situation.isAccepted_iff hspelled hs, ← htake, Ne, hstart]
    simp only [diagnose, refusalReason, hdrop, haccepted, Situation.canFollow_iff hspelled hs]
    simp [and_assoc]

/-! ## The sides of an operand -/

/-- The tokens that have begun a node and, of two operands, its left one. -/
def Frame.Opens : Frame → List Token → Prop
  | left, ts => ts = [.opening]
  | right _, ts => ∃ (d : Derivation .operand) (plus : Bool),
      ts = .opening :: d.tokens ++ [.separator plus]

namespace Frame

variable {text : List Char}

theorem Spells.exists_tokens {frame : Frame} (h : frame.Spells text) (frames : List Frame) :
    ∃ ts, frame.Opens ts ∧ (∀ t ∈ ts, t.IsSpelled) ∧ ts.flatMap Token.chars = text ∧
      Situation.shiftAll ⟨frames, .start .operand⟩ ts =
        some ⟨frame :: frames, .start .operand⟩ := by
  cases frame with
  | left =>
    obtain rfl : text = ['['] := h
    exact ⟨[.opening], rfl, by simp [Token.IsSpelled], rfl, rfl⟩
  | right first =>
    obtain ⟨d, plus, rfl, rfl⟩ := h
    refine ⟨.opening :: d.tokens ++ [.separator plus], ⟨d, plus, rfl⟩, ?_, ?_, ?_⟩
    · simp only [List.cons_append, List.forall_mem_cons, List.forall_mem_append]
      exact ⟨trivial, d.isSpelled_tokens, trivial, by simp⟩
    · simp [Token.chars, d.flatMap_chars_tokens, Derivation.separator]
    · show Situation.shiftAll ⟨.left :: frames, .start .operand⟩ (d.tokens ++ [.separator plus]) = _
      rw [Situation.shiftAll_append_of_eq (Situation.shiftAll_derivation d _ (by simp))]
      rfl

theorem SpellAll.exists_tokens {frames : List Frame} (h : SpellAll frames text) :
    ∃ ts, (∀ t ∈ ts, t.IsSpelled) ∧ ts.flatMap Token.chars = text ∧
      Situation.initial.shiftAll ts = some ⟨frames, .start .operand⟩ := by
  induction frames generalizing text with
  | nil => exact ⟨[], by simp, (show text = [] from h).symm, rfl⟩
  | cons frame frames ih =>
    obtain ⟨before, here, rfl, hall, hframe⟩ := h
    obtain ⟨ts, hts, rfl, hs⟩ := ih hall
    obtain ⟨us, -, hus, rfl, hs'⟩ := hframe.exists_tokens frames
    exact ⟨ts ++ us, List.forall_mem_append.mpr ⟨hts, hus⟩, List.flatMap_append,
      (Situation.shiftAll_append_of_eq hs).trans hs'⟩

end Frame

/-- The last tokens in front of where an operand ends are its own, and those before them have begun
the node around it. -/
theorem Situation.exists_operand {ts : List Token} {frame : Frame} {frames : List Frame}
    {e : Expression} (hts : ∀ t ∈ ts, t.IsSpelled)
    (hs : initial.shiftAll ts = some ⟨frame :: frames, .operand e⟩) :
    ∃ (outer opens : List Token) (d : Derivation .operand), frame.Opens opens ∧
      ts = outer ++ opens ++ d.tokens := by
  obtain ⟨before, here, htext, ⟨first, second, rfl, hall, hframe⟩, d, rfl, rfl⟩ :=
    spells_initial.shiftAll hts hs
  obtain ⟨outer, houter, rfl, hs₁⟩ := hall.exists_tokens
  obtain ⟨opens, hopens, hspelled, rfl, hs₂⟩ := hframe.exists_tokens frames
  have hs₃ : shiftAll ⟨frame :: frames, .start .operand⟩ d.tokens =
      some ⟨frame :: frames, .operand d.expression⟩ :=
    shiftAll_derivation d (frame :: frames) (by simp)
  have hwhole : initial.shiftAll (outer ++ opens ++ d.tokens) =
      some ⟨frame :: frames, .operand d.expression⟩ := by
    rw [List.append_assoc, shiftAll_append_of_eq hs₁, shiftAll_append_of_eq hs₂, hs₃]
  refine ⟨outer, opens, d, hopens, shiftAll_inj hts ?_ hs hwhole ?_⟩
  · simp only [List.forall_mem_append]
    exact ⟨⟨houter, hspelled⟩, d.isSpelled_tokens⟩
  · simpa [d.flatMap_chars_tokens] using htext

/-- Where a separator and an arrow can follow there is a left operand. -/
theorem exists_left_of_canFollow {ts : List Token} (h : Begins ts)
    (hsep : CanFollow ts .separator) :
    ∃ (outer : List Token) (d : Derivation .operand), ts = outer ++ .opening :: d.tokens := by
  obtain ⟨⟨frames, focus⟩, hs⟩ := (begins_iff h.isSpelled).mp h
  rw [Situation.canFollow_iff h.isSpelled hs] at hsep
  cases focus with
  | operand e =>
    rcases frames with _ | ⟨frame, frames⟩
    · simp [Situation.expects] at hsep
    · obtain ⟨outer, opens, d, hopens, rfl⟩ := Situation.exists_operand h.isSpelled hs
      cases frame with
      | left =>
        obtain rfl : opens = [.opening] := hopens
        exact ⟨outer, d, by simp⟩
      | right first => simp [Situation.expects] at hsep
  | start site => cases site <;> simp [Situation.expects] at hsep
  | _ => simp [Situation.expects] at hsep

/-- Where an arrow can follow and no separator there is a right operand. -/
theorem exists_right_of_canFollow {ts : List Token} (h : Begins ts) (harrow : CanFollow ts .arrow)
    (hsep : ¬CanFollow ts .separator) :
    ∃ (outer : List Token) (d : Derivation .operand) (plus : Bool) (e : Derivation .operand),
      ts = outer ++ .opening :: d.tokens ++ .separator plus :: e.tokens := by
  obtain ⟨⟨frames, focus⟩, hs⟩ := (begins_iff h.isSpelled).mp h
  rw [Situation.canFollow_iff h.isSpelled hs] at harrow hsep
  cases focus with
  | operand e =>
    rcases frames with _ | ⟨frame, frames⟩
    · simp [Situation.expects] at harrow
    · obtain ⟨outer, opens, e, hopens, rfl⟩ := Situation.exists_operand h.isSpelled hs
      cases frame with
      | left => simp [Situation.expects] at hsep
      | right first =>
        obtain ⟨d, plus, rfl⟩ := hopens
        exact ⟨outer, d, plus, e, by simp⟩
  | start site => cases site <;> simp [Situation.expects] at harrow
  | _ => simp [Situation.expects] at harrow

/-! ## Refusals -/

theorem ReadFault.message_eq_endOfInput {fault : ReadFault} :
    fault.message = "Unexpected end of input" ↔ fault = .endOfInput := by
  -- all other messages begin with other letters
  have hother {front rest back : String} (hfront : front.toList.head?.any (· != 'U')) :
      front ++ rest ++ back ≠ "Unexpected end of input" := by
    intro heq
    have hlist := congrArg (fun text => text.toList.head?) heq
    cases hf : front.toList with
    | nil => simp [hf] at hfront
    | cons c cs =>
      simp only [String.toList_append, hf, List.cons_append, List.head?_cons] at hlist hfront
      obtain rfl : c = 'U' := Option.some.inj hlist
      simp at hfront
  constructor
  · intro h
    cases fault with
    | endOfInput => rfl
    | invalidCharacter c => exact absurd h (hother (by decide))
    | extraCharacters rest => exact absurd h (hother (by decide))
    | expectedOperator found => exact absurd h (hother (by decide))
    | expectedArrow found => exact absurd h (hother (by decide))
    | expectedLabel => exact absurd h (by decide)
  · intro h
    rw [h]
    rfl

theorem refusalReason_eq_endOfInput {source : List Char} {position : Nat} {ts : List Token} :
    refusalReason source position ts = .endOfInput ↔ source.length ≤ position := by
  rw [← List.drop_eq_nil_iff]
  unfold refusalReason
  split
  · next h => simp [h]
  · next found rest h =>
    rw [h]
    simp only [reduceCtorEq, iff_false]
    intro hreason
    repeat' split at hreason
    all_goals cases hreason

namespace Expression

/-- A text that is not read is refused where it leaves the grammar, and for the reason that there
is. -/
theorem readChars_eq_error {source : List Char} {fault : ReadFault} {position : Nat}
    (hne : source ≠ []) (h : readChars source = .error (fault, position)) :
    position ≤ source.length ∧ ∃ ts, StopsAt source ts (source.drop position) ∧
      fault = refusalReason source position ts := by
  obtain ⟨ts, hstop, hs⟩ := Situation.exists_stopsAt source
  obtain ⟨⟨s, rest⟩, hrun⟩ : ∃ r, Situation.initial.run source = r := ⟨_, rfl⟩
  rw [hrun] at hstop hs
  have happend : source = ts.flatMap Token.chars ++ rest := hstop.readAll.eq_append
  have hlength : source.length - rest.length = (ts.flatMap Token.chars).length := by
    rw [happend, List.length_append]
    omega
  have hdrop : source.drop (source.length - rest.length) = rest := by
    rw [hlength]
    calc source.drop (ts.flatMap Token.chars).length
        = (ts.flatMap Token.chars ++ rest).drop (ts.flatMap Token.chars).length := by
          rw [← happend]
      _ = rest := List.drop_left
  obtain ⟨hfault, hposition⟩ : fault = diagnose s (position == 0) rest ∧
      position = source.length - rest.length := by
    simp only [readChars, hrun] at h
    split at h
    · -- all of it is gone over, and the text may end: then only the empty one is refused
      simp [hne] at h
    · obtain ⟨rfl, rfl⟩ := Prod.mk.inj (Except.error.inj h)
      exact ⟨rfl, rfl⟩
  rw [← hposition] at hdrop
  rw [← hdrop] at hstop hfault
  refine ⟨by omega, ts, hstop, hfault.trans (diagnose_eq_refusalReason hstop hs)⟩

/-- A text that is refused and not empty without its blanks leaves the grammar at the position of
the refusal, and there only. The message gives the reason, which tells of the end of input exactly
at the end; and of the two messages about what must follow an operand one is about a left operand
and the other about a right one. -/
theorem stopsAt_of_read {text : Option String} {m : Misreading}
    (hne : withoutBlanks (text.getD "") ≠ "") (h : read text = .error m) :
    m.source = withoutBlanks (text.getD "") ∧ m.position ≤ m.source.length ∧
    ∃ ts, StopsAt m.source.toList ts (m.source.toList.drop m.position) ∧
      (∀ us rest, StopsAt m.source.toList us rest →
        us = ts ∧ rest = m.source.toList.drop m.position) ∧
      m.short = (refusalReason m.source.toList m.position ts).message ∧
      (m.short = "Unexpected end of input" ↔ m.position = m.source.length) ∧
      (CanFollow ts .separator → CanFollow ts .arrow →
        ∃ (outer : List Token) (d : Derivation .operand), ts = outer ++ .opening :: d.tokens) ∧
      (CanFollow ts .arrow → ¬CanFollow ts .separator →
        ∃ (outer : List Token) (d : Derivation .operand) (plus : Bool) (e : Derivation .operand),
          ts = outer ++ .opening :: d.tokens ++ .separator plus :: e.tokens) := by
  obtain ⟨source, hsource⟩ : ∃ source, source = withoutBlanks (text.getD "") := ⟨_, rfl⟩
  rw [← hsource] at hne
  obtain ⟨fault, position, hchars, rfl⟩ : ∃ fault position,
      readChars source.toList = .error (fault, position) ∧ m = ⟨fault, position, source⟩ := by
    simp only [read, ← hsource] at h
    split at h
    · simp at h
    · next fault position hchars => exact ⟨fault, position, hchars, (Except.error.inj h).symm⟩
  obtain ⟨hle, ts, hstop, hfault⟩ := readChars_eq_error (by simpa using hne) hchars
  rw [String.length_toList] at hle
  refine ⟨hsource, hle, ts, hstop, fun us rest hother => hother.unique hstop, ?_, ?_, ?_, ?_⟩
  · exact congrArg ReadFault.message hfault
  · show fault.message = _ ↔ position = source.length
    rw [ReadFault.message_eq_endOfInput, hfault, refusalReason_eq_endOfInput, String.length_toList]
    omega
  · exact fun hsep _ => exists_left_of_canFollow hstop.begins hsep
  · exact exists_right_of_canFollow hstop.begins

/-- A third operand is refused at its comma, with what stands there. -/
theorem stopsAt_of_read_thirdOperand :
    ∃ m ts, read (some "[a], [b], [c] -> [d]") = .error m ∧ m.position = 7 ∧
      m.short = "Expected '->[' but found ',[c'" ∧
      StopsAt m.source.toList ts ",[c]->[d]".toList ∧ ¬CanFollow ts .separator ∧
      ∃ (outer : List Token) (d : Derivation .operand) (plus : Bool) (e : Derivation .operand),
        ts = outer ++ .opening :: d.tokens ++ .separator plus :: e.tokens := by
  have hsource : withoutBlanks "[a], [b], [c] -> [d]" = "[a],[b],[c]->[d]" := by decide
  obtain ⟨ts, hts⟩ : ∃ ts : List Token, ts =
      [.opening, .label "a", .closing, .separator false, .label "b", .closing] := ⟨_, rfl⟩
  have hread : Token.ReadAll "[a],[b],[c]->[d]".toList ts ",[c]->[d]".toList := by
    rw [hts]
    exact .cons rfl (.cons rfl (.cons rfl (.cons rfl (.cons rfl (.cons rfl (.nil _))))))
  have hshift : Situation.initial.shiftAll ts =
      some ⟨[.right (.leaf ["a"])], .operand (.leaf ["b"])⟩ := by
    rw [hts]
    rfl
  have hrun := (Situation.run_readAll hread hshift).trans
    (Situation.run_of_next?_eq_none (by decide))
  have hrefused : read (some "[a], [b], [c] -> [d]") =
      .error ⟨.expectedArrow ",[c", 7, "[a],[b],[c]->[d]"⟩ := by
    simp only [read, Option.getD_some, hsource, readChars, hrun]
    rfl
  obtain ⟨-, -, us, hstop, -, -, -, -, hright⟩ := stopsAt_of_read (by decide) hrefused
  obtain ⟨s, hs, hrun'⟩ := Situation.run_of_stopsAt hstop
  obtain ⟨rfl, -⟩ := Prod.mk.inj (hrun.symm.trans hrun')
  have hfollow (k : Token.Kind) : CanFollow us k ↔ k = .arrow := by
    rw [Situation.canFollow_iff hstop.begins.isSpelled hs]
    exact List.mem_singleton
  have hsep : ¬CanFollow us .separator := by simp [hfollow]
  have harrow : CanFollow us .arrow := by simp [hfollow]
  exact ⟨_, us, hrefused, rfl, rfl, hstop, hsep, hright harrow hsep⟩

end Expression

end Contraction
