import Contraction.Expression.Situation
import Contraction.Proofs.Expression.Grammar

/-!
# What is derived is read

A reader goes over the text of every derivation and comes out with its expression. There is a lemma
for each token, then one for a list of labels, and `run_derivation` for nodes and operands. All of
them are about a text with something behind it, since a reader never stands at the end of an operand
but always in front of what closes the node.
-/

namespace Contraction

/-! ## Which token comes next -/

namespace Token

/-- The kind of token that begins with a character; a comma may also begin a separator. -/
def Kind.ofFirst? (c : Char) : Option Kind :=
  if isLabelChar c then some label
  else if c = '[' then some opening
  else if c = ']' then some closing
  else if c = ',' then some comma
  else if c = '+' then some separator
  else if c = '-' then some arrow
  else none

theorem exists_ofFirst? {k : Kind} {text rest : List Char} {t : Token}
    (h : readAs? k text = some (t, rest)) : ∃ c cs, text = c :: cs ∧
      (Kind.ofFirst? c = some k ∨ (k = .separator ∧ Kind.ofFirst? c = some .comma)) := by
  unfold readAs? at h
  split at h
  · exact ⟨_, _, rfl, Or.inl (by decide)⟩
  · exact ⟨_, _, rfl, Or.inl (by decide)⟩
  · exact ⟨_, _, rfl, Or.inl (by decide)⟩
  · exact ⟨_, _, rfl, Or.inr ⟨rfl, by decide⟩⟩
  · exact ⟨_, _, rfl, Or.inl (by decide)⟩
  · exact ⟨_, _, rfl, Or.inl (by decide)⟩
  · split at h
    · next hc => exact ⟨_, _, rfl, Or.inl (by simp [Kind.ofFirst?, hc])⟩
    · simp at h
  · simp at h

/-- Tokens of two kinds are at the front of a text only where a comma is one of them. -/
theorem kind_eq_or {k l : Kind} {text rest other : List Char} {t u : Token}
    (hk : readAs? k text = some (t, rest)) (hl : readAs? l text = some (u, other)) :
    k = l ∨ (k = .comma ∧ l = .separator) ∨ (k = .separator ∧ l = .comma) := by
  obtain ⟨c, cs, rfl, hc⟩ := exists_ofFirst? hk
  obtain ⟨d, ds, hd, hc'⟩ := exists_ofFirst? hl
  obtain ⟨rfl, rfl⟩ := List.cons.inj hd
  rcases hc with hc | ⟨rfl, hc⟩ <;> rcases hc' with hc' | ⟨rfl, hc'⟩ <;> simp_all

theorem readAs?_label (w : Word) {rest : List Char} (h : EndsLabel rest) :
    readAs? .label (w.chars ++ rest) = some (label w.name, rest) := by
  obtain ⟨c, cs, hc⟩ := List.exists_cons_of_ne_nil w.chars_ne_nil
  have hlabel : isLabelChar c = true := w.all_isLabelChar c (by simp [hc])
  have htake := w.takeWhile_append h
  have hdrop := w.dropWhile_append h
  simp only [hc, List.cons_append, List.takeWhile_cons, List.dropWhile_cons, hlabel, if_true,
    List.cons.injEq, true_and] at htake hdrop
  have hname : String.ofList (c :: cs) = w.name := by
    rw [← hc, Word.chars, String.ofList_toList]
  rw [hc, List.cons_append, readAs?, if_pos hlabel, htake, hdrop, hname]

end Token

namespace Situation

variable {s next : Situation} {text rest : List Char} {frames : List Frame} {site : Site}
  {names : List String}

/-- Where a comma may stand no separator may. -/
theorem separator_not_mem_expects (h : Token.Kind.comma ∈ s.expects) :
    Token.Kind.separator ∉ s.expects := by
  obtain ⟨frames, focus⟩ := s
  cases focus with
  | start site => cases site <;> simp_all [expects]
  | labels site names => simp [expects]
  | comma site names => simp [expects]
  | operand e =>
    rcases frames with _ | ⟨frame, frames⟩
    · simp [expects]
    · cases frame <;> simp_all [expects]
  | node e => simp [expects]
  | closed e => simp [expects]

/-- At most one of the tokens that may follow is at the front of a text. -/
theorem next?_of_readAs? {t : Token} (hk : t.kind ∈ s.expects)
    (hr : Token.readAs? t.kind text = some (t, rest)) : s.next? text = some (t, rest) := by
  cases hn : s.next? text with
  | none =>
    have hnone := List.findSome?_eq_none_iff.mp hn t.kind hk
    simp [hr] at hnone
  | some found =>
    obtain ⟨u, other⟩ := found
    obtain ⟨hu, hur⟩ := next?_readAs? hn
    -- a comma could be taken for a separator, but no situation expects both
    rcases Token.kind_eq_or hr hur with heq | ⟨ht, hsep⟩ | ⟨ht, hcomma⟩
    · rw [← heq, hr] at hur
      exact hur.symm
    · exact absurd (hsep ▸ hu) (separator_not_mem_expects (ht ▸ hk))
    · exact absurd (ht ▸ hk) (separator_not_mem_expects (hcomma ▸ hu))

/-- A token that leads on is read. -/
theorem run_token {t : Token} (hs : s.shift t = some next)
    (hr : Token.readAs? t.kind text = some (t, rest)) : s.run text = next.run rest := by
  have ht : s.next? text = some (t, rest) :=
    next?_of_readAs? ((shift_isSome s t).mp (by simp [hs])) hr
  rw [run]
  split
  · next hn => simp [ht] at hn
  · next u other hn =>
    rw [ht] at hn
    obtain ⟨rfl, rfl⟩ := Prod.mk.inj (Option.some.inj hn)
    rw [hs]

theorem run_nil (s : Situation) : s.run [] = (s, []) := by
  have hn : s.next? [] = none := by
    rw [next?, List.findSome?_eq_none_iff]
    intro k _
    cases k <;> rfl
  rw [run]
  split
  · rfl
  · next h => simp [hn] at h

/-! ## Brackets, separators and arrows -/

theorem run_opening : run ⟨frames, .start .operand⟩ ('[' :: rest) =
    run ⟨.left :: frames, .start .operand⟩ rest :=
  run_token (t := .opening) rfl rfl

theorem run_separator {e : Expression} (plus : Bool) :
    run ⟨.left :: frames, .operand e⟩ (Derivation.separator plus ++ rest) =
      run ⟨.right e :: frames, .start .operand⟩ rest :=
  run_token (t := .separator plus) rfl (by cases plus <;> rfl)

theorem run_arrow_left {e : Expression} :
    run ⟨.left :: frames, .operand e⟩ ('-' :: '>' :: '[' :: rest) =
      run ⟨frames, .start (.result e none)⟩ rest :=
  run_token (t := .arrow) rfl rfl

theorem run_arrow_right {e first : Expression} :
    run ⟨.right first :: frames, .operand e⟩ ('-' :: '>' :: '[' :: rest) =
      run ⟨frames, .start (.result first (some e))⟩ rest :=
  run_token (t := .arrow) rfl rfl

theorem run_closing_node {frame : Frame} {e : Expression} :
    run ⟨frame :: frames, .node e⟩ (']' :: rest) = run ⟨frame :: frames, .operand e⟩ rest :=
  run_token (t := .closing) rfl rfl

theorem run_closing_whole {e : Expression} :
    run ⟨[], .node e⟩ (']' :: rest) = run ⟨[], .closed e⟩ rest :=
  run_token (t := .closing) rfl rfl

theorem run_closing_start :
    run ⟨frames, .start site⟩ (']' :: rest) = run (closeLabels frames site []) rest :=
  run_token (t := .closing) (by cases site <;> rfl) rfl

theorem run_closing_labels :
    run ⟨frames, .labels site names⟩ (']' :: rest) = run (closeLabels frames site names) rest :=
  run_token (t := .closing) rfl rfl

/-! ## Labels -/

theorem run_first (w : Word) (h : EndsLabel rest) :
    run ⟨frames, .start site⟩ (w.chars ++ rest) = run ⟨frames, .labels site [w.name]⟩ rest :=
  run_token (t := .label w.name) (by cases site <;> rfl) (Token.readAs?_label w h)

theorem run_more (words : List Word) (h : EndsLabel rest) :
    run ⟨frames, .labels site names⟩ (Word.moreYield words ++ rest) =
      run ⟨frames, .labels site (names ++ words.map Word.name)⟩ rest := by
  induction words generalizing names with
  | nil => simp [Word.moreYield]
  | cons w words ih =>
    have happend : Word.moreYield (w :: words) ++ rest =
        ',' :: (w.chars ++ (Word.moreYield words ++ rest)) := by
      simp [Word.moreYield]
    have hcomma : run ⟨frames, .labels site names⟩
        (',' :: (w.chars ++ (Word.moreYield words ++ rest))) =
          run ⟨frames, .comma site names⟩ (w.chars ++ (Word.moreYield words ++ rest)) :=
      run_token (t := .comma) rfl rfl
    have hword : run ⟨frames, .comma site names⟩ (w.chars ++ (Word.moreYield words ++ rest)) =
        run ⟨frames, .labels site (names ++ [w.name])⟩ (Word.moreYield words ++ rest) :=
      run_token (t := .label w.name) rfl
        (Token.readAs?_label w (Word.endsLabel_moreYield words h))
    rw [happend, hcomma, hword, ih, List.append_assoc, List.map_cons, List.singleton_append]

/-- A closed list of labels is read to its end. -/
theorem run_labels (words : List Word) :
    run ⟨frames, .start site⟩ (Word.listYield words ++ ']' :: rest) =
      run (closeLabels frames site (words.map Word.name)) rest := by
  cases words with
  | nil => exact run_closing_start
  | cons w words =>
    have hend := endsLabel_closing rest
    rw [Word.listYield, List.append_assoc, run_first w (Word.endsLabel_moreYield words hend),
      run_more words hend, run_closing_labels, List.map_cons, List.singleton_append]

end Situation

/-! ## Nodes and operands -/

/-- What has been read last behind a node or an operand. -/
def Nonterminal.focus : Nonterminal → Expression → Focus
  | node, e => .node e
  | operand, e => .operand e

namespace Situation

variable {rest : List Char}

theorem run_resultYield {frames : List Frame} {frame : Frame} {e : Expression}
    (labels : List Word) (site : Site)
    (harrow : ∀ rest, run ⟨frame :: frames, .operand e⟩ ('-' :: '>' :: '[' :: rest) =
      run ⟨frames, .start site⟩ rest) (hsite : site ≠ .operand) :
    run ⟨frame :: frames, .operand e⟩ (Derivation.resultYield labels ++ rest) =
      run ⟨frames, .node (site.close (labels.map Word.name))⟩ rest := by
  simp only [Derivation.resultYield, List.append_assoc, List.cons_append, List.nil_append]
  rw [harrow, run_labels]
  cases site with
  | operand => exact absurd rfl hsite
  | result left right => rfl

/-- A node is read wherever an operand may begin, and an operand inside of a node. -/
theorem run_derivation {symbol : Nonterminal} (d : Derivation symbol) (frames : List Frame)
    (hf : symbol = .operand → frames ≠ []) (rest : List Char) :
    run ⟨frames, .start .operand⟩ (d.yield ++ rest) =
      run ⟨frames, symbol.focus d.expression⟩ rest := by
  induction d generalizing frames rest with
  | permutation operand labels ih =>
    simp only [Derivation.yield, List.cons_append, List.append_assoc]
    rw [run_opening, ih (.left :: frames) (by simp)]
    exact run_resultYield labels (.result operand.expression none) (fun _ => run_arrow_left)
      (by simp)
  | contraction left plus right labels ihl ihr =>
    simp only [Derivation.yield, List.cons_append, List.append_assoc]
    rw [run_opening, ihl (.left :: frames) (by simp)]
    show run ⟨.left :: frames, .operand left.expression⟩ _ = _
    rw [run_separator, ihr (.right left.expression :: frames) (by simp)]
    exact run_resultYield labels (.result left.expression (some right.expression))
      (fun _ => run_arrow_right) (by simp)
  | inner node ih =>
    simp only [Derivation.yield, List.append_assoc, List.singleton_append]
    rw [ih frames (by simp)]
    obtain ⟨frame, frames, rfl⟩ := List.exists_cons_of_ne_nil (hf rfl)
    exact run_closing_node
  | leaf labels =>
    simp only [Derivation.yield, List.append_assoc, List.singleton_append]
    rw [run_labels]
    obtain ⟨frame, frames, rfl⟩ := List.exists_cons_of_ne_nil (hf rfl)
    rfl

end Situation

end Contraction
