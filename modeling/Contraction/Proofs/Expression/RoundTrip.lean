import Contraction.Proofs.Expression.Recognition

/-!
# Writing and reading back

The written form of a branch is a text of the grammar, so reading it gives a branch of the same
shape with the same labels. The brackets around the whole are left out in writing, and every operand
has them; so the induction is about operands, whose derivation has the closing bracket, and the
whole is an operand without its last bracket (`Derivation.whole`).
-/

namespace Contraction

open Text

/-! ## No blanks -/

theorem isBlank_of_isLabelChar {c : Char} (h : isLabelChar c = true) : isBlank c = false := by
  have hrange : (65 ≤ c.toNat ∧ c.toNat ≤ 90) ∨ (97 ≤ c.toNat ∧ c.toNat ≤ 122) ∨
      (48 ≤ c.toNat ∧ c.toNat ≤ 57) := by
    simp only [isLabelChar, Bool.or_eq_true, Bool.and_eq_true, decide_eq_true_eq, Char.le_def,
      UInt32.le_iff_toNat_le, or_assoc] at h
    exact h
  simp only [isBlank, Bool.or_eq_false_iff, Bool.and_eq_false_iff, decide_eq_false_iff_not,
    beq_eq_false_iff_ne]
  omega

/-- No blank is in the text. -/
def NoBlank (text : List Char) : Prop :=
  ∀ c ∈ text, isBlank c = false

instance (text : List Char) : Decidable (NoBlank text) :=
  List.decidableBAll _ text

theorem noBlank_append {text more : List Char} :
    NoBlank (text ++ more) ↔ NoBlank text ∧ NoBlank more :=
  List.forall_mem_append

theorem Word.noBlank_listYield (words : List Word) : NoBlank (listYield words) := by
  have hword : ∀ w : Word, NoBlank w.chars := fun w c hc =>
    isBlank_of_isLabelChar (w.all_isLabelChar c hc)
  have hmore : ∀ words : List Word, NoBlank (moreYield words) := by
    intro words c hc
    obtain ⟨w, -, hw⟩ := List.mem_flatMap.mp hc
    rcases List.mem_cons.mp hw with rfl | hw
    · decide
    · exact hword w c hw
  cases words with
  | nil => simp [listYield, NoBlank]
  | cons w words => exact noBlank_append.mpr ⟨hword w, hmore words⟩

namespace Derivation

theorem noBlank_resultYield (labels : List Word) : NoBlank (resultYield labels) :=
  noBlank_append.mpr ⟨noBlank_append.mpr ⟨by decide, Word.noBlank_listYield labels⟩, by decide⟩

theorem noBlank_yield {symbol : Nonterminal} (d : Derivation symbol) : NoBlank d.yield := by
  induction d with
  | permutation operand labels ih =>
    exact noBlank_append.mpr ⟨List.forall_mem_cons.mpr ⟨by decide, ih⟩, noBlank_resultYield labels⟩
  | contraction left plus right labels ihl ihr =>
    refine noBlank_append.mpr ⟨noBlank_append.mpr ⟨noBlank_append.mpr ⟨?_, ?_⟩, ihr⟩,
      noBlank_resultYield labels⟩
    · exact List.forall_mem_cons.mpr ⟨by decide, ihl⟩
    · cases plus <;> decide
  | inner node ih => exact noBlank_append.mpr ⟨ih, by decide⟩
  | leaf labels => exact noBlank_append.mpr ⟨Word.noBlank_listYield labels, by decide⟩

/-- The whole that is an operand without its last bracket. -/
def whole : Derivation .operand → WholeDerivation
  | inner node => .node node false
  | leaf labels => .leaf labels false

theorem yield_whole (d : Derivation .operand) : d.whole.yield ++ [']'] = d.yield := by
  cases d <;> simp [whole, yield, WholeDerivation.yield, WholeDerivation.closing]

theorem expression_whole (d : Derivation .operand) : d.whole.expression = d.expression := by
  cases d <;> rfl

end Derivation

/-! ## Branches that can be written -/

/-- The label is one that the grammar has: letters and digits, at least one. -/
def Label.IsWord : Label → Prop
  | none => False
  | some name => name ≠ "" ∧ ∀ c ∈ name.toList, isLabelChar c = true

namespace Branch

/-- No node has a right child alone, and all labels are words. -/
structure IsWritable (b : Branch) : Prop where
  left : ∀ n ∈ b.preorder, n.left = absent → n.right = absent
  words : ∀ n ∈ b.preorder, ∀ label ∈ n.labels, label.IsWord

theorem exists_words {labels : List Label} (h : ∀ label ∈ labels, label.IsWord) :
    ∃ words : List Word, labels = (words.map Word.name).map some := by
  induction labels with
  | nil => exact ⟨[], rfl⟩
  | cons label labels ih =>
    obtain ⟨words, rfl⟩ := ih fun x hx => h x (by simp [hx])
    cases label with
    | none => exact absurd (h none (by simp)) id
    | some name =>
      obtain ⟨hne, hall⟩ := h (some name) (by simp)
      exact ⟨⟨name, by simpa using hne, hall⟩ :: words, rfl⟩

theorem exists_word_of_isWritable {e : Entry} {l r : Branch} (h : (node e l r).IsWritable) :
    ∃ words : List Word, e.labels = (words.map Word.name).map some :=
  exists_words (h.words (node e l r) (by simp))

theorem IsWritable.child_left {e : Entry} {l r : Branch} (h : (node e l r).IsWritable) :
    l.IsWritable where
  left := fun n hn => h.left n (by simp [hn])
  words := fun n hn => h.words n (by simp [hn])

theorem IsWritable.child_right {e : Entry} {l r : Branch} (h : (node e l r).IsWritable) :
    r.IsWritable where
  left := fun n hn => h.left n (by simp [hn])
  words := fun n hn => h.words n (by simp [hn])

theorem joinLabels_names (words : List Word) :
    joinLabels (words.map Word.name) = Word.listYield words := by
  cases words with
  | nil => rfl
  | cons w words =>
    induction words generalizing w with
    | nil => simp [joinLabels, Word.listYield, Word.moreYield, Word.chars]
    | cons v words ih =>
      have htail := ih v
      simp only [joinLabels, List.map_cons, List.intercalate_cons_cons] at htail ⊢
      rw [htail]
      simp [Word.listYield, Word.moreYield, Word.chars]

/-- A branch that can be written shows an expression, and with its last bracket the written form is
the text of an operand. -/
theorem IsWritable.exists_derivation {b : Branch} (h : b.IsWritable) (hb : b ≠ absent) :
    ∃ d : Derivation .operand, b.Shows d.expression ∧
      d.yield = d.expression.written ++ [']'] := by
  -- the whole lacks its last bracket and an operand has it, so the induction is on operands
  induction b with
  | absent => exact absurd rfl hb
  | node e l r ihl ihr =>
    obtain ⟨words, hw⟩ := exists_word_of_isWritable h
    cases l with
    | absent =>
      obtain rfl : r = absent := h.left (node e absent r) (by simp) rfl
      refine ⟨.leaf words, .leaf hw, ?_⟩
      simp [Derivation.yield, Derivation.expression, Expression.written, joinLabels_names]
    | node el ll lr =>
      obtain ⟨d, hshows, hyield⟩ := ihl h.child_left (by simp)
      cases r with
      | absent =>
        refine ⟨.inner (.permutation d words), .permutation hw hshows, ?_⟩
        simp [Derivation.yield, Derivation.expression, Expression.written, hyield,
          Derivation.resultYield, bracketLabels, joinLabels_names]
      | node er rl rr =>
        obtain ⟨c, hcshows, hcyield⟩ := ihr h.child_right (by simp)
        refine ⟨.inner (.contraction d false c words), .contraction hw hshows hcshows, ?_⟩
        simp [Derivation.yield, Derivation.expression, Expression.written, hyield, hcyield,
          Derivation.resultYield, Derivation.separator, bracketLabels, joinLabels_names]

/-- A walk from a node of the branch goes through nodes of the branch. -/
theorem mem_preorder_trans {b n m : Branch} (hn : n ∈ b.preorder) (hm : m ∈ n.preorder) :
    m ∈ b.preorder := by
  induction b with
  | absent => simp at hn
  | node e l r ihl ihr =>
    rw [preorder_node, List.mem_cons, List.mem_append] at hn ⊢
    rcases hn with rfl | hn | hn
    · simpa using hm
    · exact Or.inr (Or.inl (ihl hn))
    · exact Or.inr (Or.inr (ihr hn))

theorem ne_absent_of_mem_preorder {b n : Branch} (h : n ∈ b.preorder) : n ≠ absent := by
  induction b with
  | absent => simp at h
  | node e l r ihl ihr =>
    rw [preorder_node, List.mem_cons, List.mem_append] at h
    rcases h with rfl | h | h
    · simp
    · exact ihl h
    · exact ihr h

theorem IsWritable.of_mem {b n : Branch} (h : b.IsWritable) (hn : n ∈ b.preorder) :
    n.IsWritable where
  left := fun m hm => h.left m (mem_preorder_trans hn hm)
  words := fun m hm => h.words m (mem_preorder_trans hn hm)

end Branch

/-- The text of an operand without its last bracket is read, if there is any. -/
theorem Expression.read_of_derivation {d : Derivation .operand}
    (hy : d.yield = d.expression.written ++ [']']) (hne : d.expression.written ≠ []) :
    read (some d.expression.text) = .ok d.expression := by
  have hwhole : d.whole.yield = d.expression.written :=
    List.append_cancel_right (d.yield_whole.trans hy)
  have hblank : NoBlank d.expression.written := (noBlank_append.mp (hy ▸ d.noBlank_yield)).1
  have hsource : withoutBlanks d.expression.text = d.expression.text := by
    rw [withoutBlanks, text, String.toList_ofList, List.filter_eq_self.mpr]
    intro c hc
    simp [hblank c hc]
  refine read_eq_ok.mpr ⟨?_, d.whole, ?_, d.expression_whole⟩
  · rw [Option.getD_some, hsource]
    simpa [text] using hne
  · rw [WholeDerivation.IsOf, Option.getD_some, hsource, hwhole, text, String.toList_ofList]

/-- Only a leaf without labels is written as nothing. -/
theorem Branch.Shows.written_ne_nil {b : Branch} {d : Derivation .operand}
    (h : b.Shows d.expression) (hy : d.yield = d.expression.written ++ [']'])
    (hne : ¬(b.isLeaf = true ∧ b.labels = [])) : d.expression.written ≠ [] := by
  intro hnil
  rw [hnil, List.nil_append] at hy
  cases d with
  | inner node =>
    obtain ⟨text, hnode⟩ := node.exists_yield_node
    simp [Derivation.yield, hnode] at hy
  | leaf words =>
    cases words with
    | nil =>
      cases h with
      | leaf hl => exact hne ⟨rfl, hl⟩
    | cons w words =>
      rw [Derivation.yield, Word.listYield, List.append_assoc] at hy
      exact Word.append_ne_cons (by decide) hy

namespace Plan

/-- A branch is written as the expression that it shows. -/
theorem textOf_of_shows {b : Branch} {x : Expression} (h : b.Shows x) :
    textOf b = .ok x.text := by
  rw [textOf, h.expression_eq]
  · rfl
  · exact h.ne_absent

theorem ofText_textOf {b : Branch} (h : b.IsWritable) (hb : b ≠ .absent)
    (hne : ¬(b.isLeaf = true ∧ b.labels = [])) :
    ∃ text q, textOf b = .ok text ∧ ofText (some text) = .ok q ∧ q.root.Alike b := by
  obtain ⟨d, hshows, hy⟩ := h.exists_derivation hb
  have hread := Expression.read_of_derivation hy (hshows.written_ne_nil hy hne)
  obtain ⟨q, hq, hroot⟩ := ofText_of_read hread
  have hq' : q.root.Shows d.expression := hroot ▸ Branch.shows_ofExpression ⟨0⟩ d.expression
  exact ⟨_, q, textOf_of_shows hshows, hq, hq'.alike hshows⟩

/-- The text of a tree, or of any node of it, reads as a tree of the same shape with the same labels
at every place, if the labels are words; only a leaf without labels has no text that is read. -/
theorem ofText_text (p : Plan) (h : p.root.IsWritable) (hroot : p.root ≠ .absent)
    (hne : ¬(p.root.isLeaf = true ∧ p.root.labels = [])) :
    (∃ text q, p.text = .ok text ∧ ofText (some text) = .ok q ∧ q.root.Alike p.root) ∧
    ∀ n ∈ p.root.preorder, ¬(n.isLeaf = true ∧ n.labels = []) →
      ∃ text q, textOf n = .ok text ∧ ofText (some text) = .ok q ∧ q.root.Alike n :=
  ⟨ofText_textOf h hroot hne,
    fun _ hn hnode => ofText_textOf (h.of_mem hn) (Branch.ne_absent_of_mem_preorder hn) hnode⟩

/-- A contraction without labels, of a permutation without labels and a leaf without labels, is read
back from its text, and so is the permutation from its own. -/
theorem ofText_text_unlabelled :
    let leaf : Branch := .node { id := "leaf", labels := [some "a1"] } .absent .absent
    let inner : Branch := .node { id := "inner", labels := [] } leaf .absent
    let empty : Branch := .node { id := "empty", labels := [] } .absent .absent
    let root : Branch := .node { id := "root", labels := [] } inner empty
    (∃ text q, Plan.text { root } = .ok text ∧ ofText (some text) = .ok q ∧ q.root.Alike root) ∧
      ∃ text q, textOf inner = .ok text ∧ ofText (some text) = .ok q ∧ q.root.Alike inner := by
  intro leaf inner empty root
  have hword : Label.IsWord (some "a1") := ⟨by decide, List.all_eq_true.mp (by decide)⟩
  have hw : root.IsWritable := by
    constructor
    · simp [root, inner, leaf, empty, Branch.left, Branch.right]
    · simp [root, inner, leaf, empty, Branch.labels, hword]
  obtain ⟨hroot, hnodes⟩ := ofText_text { root } hw (by simp [root])
    (by simp [root, Branch.isLeaf, inner])
  exact ⟨hroot, hnodes inner (by simp [root, inner]) (by simp [inner, Branch.isLeaf, leaf])⟩

end Plan

end Contraction
