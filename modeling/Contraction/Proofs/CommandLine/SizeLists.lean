import Contraction.Proofs.CommandLine.SizeItems
import Contraction.Proofs.Except
import Contraction.Proofs.Table

/-!
# Lists of sizes

A list of sizes is divided at its commas. The first piece that is neither blank nor writes a size
decides what is wrong with the list. If there is none, each label gets the last of its sizes, at the
place where it came first.

* `sizesOf_eq_ok`, `sizesOf_eq_error` — what the pieces come to
* `sizes_of_renders` — a table that has been written as a list is read back
-/

namespace Contraction.CommandLine

open Number Text

variable {separator : Char} {cs piece rest : List Char} {pieces : List (List Char)} {n : Int}

/-! ## Pieces -/

theorem splitOn_of_not_mem (h : separator ∉ cs) : splitOn separator cs = [cs] := by
  induction cs with
  | nil => rfl
  | cons c cs ih =>
    rw [List.mem_cons, not_or] at h
    rw [splitOn, if_neg (by simpa using Ne.symm h.1), ih h.2]

theorem splitOn_append (h : separator ∉ piece) :
    splitOn separator (piece ++ separator :: rest) = piece :: splitOn separator rest := by
  induction piece with
  | nil => exact if_pos (beq_self_eq_true separator)
  | cons c piece ih =>
    rw [List.mem_cons, not_or] at h
    rw [List.cons_append, splitOn, if_neg (by simpa using Ne.symm h.1), ih h.2]

/-- Pieces without the separator are found again when they have been joined. -/
theorem splitOn_intercalate (hne : pieces ≠ []) (h : ∀ piece ∈ pieces, separator ∉ piece) :
    splitOn separator ([separator].intercalate pieces) = pieces := by
  induction pieces with
  | nil => exact absurd rfl hne
  | cons piece pieces ih =>
    obtain ⟨hpiece, hpieces⟩ := List.forall_mem_cons.mp h
    cases pieces with
    | nil =>
      rw [List.intercalate_singleton]
      exact splitOn_of_not_mem hpiece
    | cons next pieces =>
      rw [List.intercalate_cons_cons, List.append_assoc, List.singleton_append,
        splitOn_append hpiece, ih (List.cons_ne_nil _ _) hpieces]

/-- Every text is divided into pieces without the separator. -/
theorem exists_pieces (separator : Char) (cs : List Char) : ∃ pieces, pieces ≠ [] ∧
    cs = [separator].intercalate pieces ∧ ∀ piece ∈ pieces, separator ∉ piece := by
  induction cs with
  | nil => exact ⟨[[]], by simp, rfl, by simp⟩
  | cons c cs ih =>
    obtain ⟨pieces, hne, hcs, hpieces⟩ := ih
    cases pieces with
    | nil => exact absurd rfl hne
    | cons piece pieces =>
      by_cases hc : c = separator
      · subst hc
        refine ⟨[] :: piece :: pieces, by simp, ?_, ?_⟩
        · rw [List.intercalate_cons_cons, ← hcs]
          rfl
        · exact List.forall_mem_cons.mpr ⟨by simp, hpieces⟩
      · refine ⟨(c :: piece) :: pieces, by simp, ?_, ?_⟩
        · cases pieces with
          | nil =>
            rw [List.intercalate_singleton] at hcs ⊢
            rw [hcs]
          | cons next pieces =>
            rw [List.intercalate_cons_cons] at hcs ⊢
            rw [hcs]
            rfl
        · obtain ⟨hpiece, hrest⟩ := List.forall_mem_cons.mp hpieces
          refine List.forall_mem_cons.mpr ⟨?_, hrest⟩
          simp [Ne.symm hc, hpiece]

/-! ## Lists -/

/-- A piece that a list may have: it is blank or writes a size above zero. -/
def Sound (piece : List Char) : Prop :=
  AllOf isBlank piece ∨ ∃ label n, WritesSize piece label n ∧ 0 < n

/-- The sizes that pieces write, those that are blank left out. -/
inductive Lists : List (List Char) → List (String × Int) → Prop where
  | nil : Lists [] []
  | blank {piece : List Char} {pieces : List (List Char)} {entries : List (String × Int)}
      (h : AllOf isBlank piece) (rest : Lists pieces entries) : Lists (piece :: pieces) entries
  | entry {piece : List Char} {pieces : List (List Char)} {entries : List (String × Int)}
      {label : String} {n : Int} (h : WritesSize piece label n) (hn : 0 < n)
      (rest : Lists pieces entries) : Lists (piece :: pieces) ((label, n) :: entries)

/-- The sizes in pieces. -/
def sizesOf (pieces : List (List Char)) : Except SizesError (List (String × Int)) :=
  ((pieces.map (trimList isBlank)).filter (!·.isEmpty)).mapM sizeEntry

theorem sizes_eq (text : String) :
    sizes text = (sizesOf (splitOn ',' text.toList)).map Table.ofPairs :=
  rfl

theorem sizesOf_cons_blank (h : AllOf isBlank piece) :
    sizesOf (piece :: pieces) = sizesOf pieces := by
  unfold sizesOf
  rw [List.map_cons, trimList_eq_nil.mpr h]
  rfl

theorem sizesOf_cons (h : ¬AllOf isBlank piece) : sizesOf (piece :: pieces) = do
    let entry ← sizeEntry (trimList isBlank piece)
    let entries ← sizesOf pieces
    return entry :: entries := by
  have hitem : (!(trimList isBlank piece).isEmpty) = true := by
    rw [Bool.not_eq_true', List.isEmpty_eq_false_iff]
    exact mt trimList_eq_nil.mp h
  unfold sizesOf
  rw [List.map_cons, List.filter_cons, if_pos hitem, List.mapM_cons]

/-- Pieces give the sizes that they write. -/
theorem sizesOf_eq_ok {entries : List (String × Int)} :
    sizesOf pieces = .ok entries ↔ Lists pieces entries := by
  constructor
  · intro h
    induction pieces generalizing entries with
    | nil =>
      obtain rfl := Except.ok.inj h
      exact .nil
    | cons piece pieces ih =>
      by_cases hblank : AllOf isBlank piece
      · rw [sizesOf_cons_blank hblank] at h
        exact .blank hblank (ih h)
      · rw [sizesOf_cons hblank] at h
        obtain ⟨⟨label, n⟩, hentry, h⟩ := except_bind_eq_ok.mp h
        obtain ⟨rest, hrest, h⟩ := except_bind_eq_ok.mp h
        obtain rfl := Except.ok.inj h
        obtain ⟨hwrites, hpos⟩ := sizeEntry_eq_ok.mp hentry
        exact .entry hwrites hpos (ih hrest)
  · intro h
    induction h with
    | nil => rfl
    | blank hblank _ ih => rw [sizesOf_cons_blank hblank, ih]
    | entry hwrites hpos _ ih =>
      rw [sizesOf_cons hwrites.not_blank, sizeEntry_eq_ok.mpr ⟨hwrites, hpos⟩, ih]
      rfl

/-- What is wrong with the first piece that a list may not have. -/
def FirstOffends (pieces : List (List Char)) (error : SizesError) : Prop :=
  ∃ before piece after, pieces = before ++ piece :: after ∧ (∀ p ∈ before, Sound p) ∧
    Offends piece error

/-- They fail with what is wrong with the first one that is neither blank nor writes a size. -/
theorem sizesOf_eq_error {error : SizesError} :
    sizesOf pieces = .error error ↔ FirstOffends pieces error := by
  constructor
  · intro h
    induction pieces with
    | nil => cases h
    | cons piece pieces ih =>
      -- behind a piece that a list may have, the error is that of the others
      have hlater : sizesOf pieces = .error error → Sound piece →
          FirstOffends (piece :: pieces) error := by
        intro hrest hsound
        obtain ⟨before, offending, after, rfl, hbefore, hoffends⟩ := ih hrest
        exact ⟨piece :: before, offending, after, rfl, List.forall_mem_cons.mpr ⟨hsound, hbefore⟩,
          hoffends⟩
      by_cases hblank : AllOf isBlank piece
      · rw [sizesOf_cons_blank hblank] at h
        exact hlater h (Or.inl hblank)
      · rw [sizesOf_cons hblank] at h
        rcases except_bind_eq_error.mp h with hfault | ⟨⟨label, n⟩, hentry, h⟩
        · exact ⟨[], piece, pieces, rfl, by simp, (sizeEntry_eq_error hblank).mp hfault⟩
        · have hrest : sizesOf pieces = .error error := by
            rcases except_bind_eq_error.mp h with hrest | ⟨rest, -, h⟩
            · exact hrest
            · cases h
          exact hlater hrest (Or.inr ⟨label, n, sizeEntry_eq_ok.mp hentry⟩)
  · rintro ⟨before, piece, after, rfl, hbefore, hoffends⟩
    induction before with
    | nil =>
      rw [List.nil_append, sizesOf_cons hoffends.not_blank,
        (sizeEntry_eq_error hoffends.not_blank).mpr hoffends]
      rfl
    | cons p before ih =>
      obtain ⟨hp, hbefore⟩ := List.forall_mem_cons.mp hbefore
      rw [List.cons_append]
      rcases hp with hblank | ⟨label, n, hwrites, hpos⟩
      · rw [sizesOf_cons_blank hblank, ih hbefore]
      · rw [sizesOf_cons hwrites.not_blank, sizeEntry_eq_ok.mpr ⟨hwrites, hpos⟩, ih hbefore]
        rfl

theorem exists_lists_iff : (∃ entries, Lists pieces entries) ↔ ∀ piece ∈ pieces, Sound piece := by
  constructor
  · rintro ⟨entries, h⟩
    induction h with
    | nil => simp
    | blank hblank _ ih => exact List.forall_mem_cons.mpr ⟨Or.inl hblank, ih⟩
    | entry hwrites hpos _ ih =>
      exact List.forall_mem_cons.mpr ⟨Or.inr ⟨_, _, hwrites, hpos⟩, ih⟩
  · intro h
    induction pieces with
    | nil => exact ⟨[], .nil⟩
    | cons piece pieces ih =>
      obtain ⟨hpiece, hpieces⟩ := List.forall_mem_cons.mp h
      obtain ⟨entries, hentries⟩ := ih hpieces
      rcases hpiece with hblank | ⟨label, n, hwrites, hpos⟩
      · exact ⟨entries, .blank hblank hentries⟩
      · exact ⟨(label, n) :: entries, .entry hwrites hpos hentries⟩

theorem Lists.pos {entries : List (String × Int)} (h : Lists pieces entries) :
    ∀ entry ∈ entries, 0 < entry.2 := by
  induction h with
  | nil => simp
  | blank _ _ ih => exact ih
  | entry _ hpos _ ih => exact List.forall_mem_cons.mpr ⟨hpos, ih⟩

/-! ## Lists that have been written -/

/-- A label that can stand in a list. -/
structure IsPlain (label : String) : Prop where
  named : label ≠ ""
  bare : Bare isBlank label.toList
  noComma : ',' ∉ label.toList
  noEquals : '=' ∉ label.toList

/-- A size that can be written in a list and read back. -/
structure IsListable (label : String) (n : Int) : Prop where
  plain : IsPlain label
  pos : 0 < n
  lt : n < (Nat.pow 10 digitLimit : Nat)

/-- Pieces write sizes in decimal digits, each behind a label and an equals sign. There may be
blanks around both and pieces of blanks alone. -/
inductive Renders : List (List Char) → List (String × Int) → Prop where
  | nil : Renders [] []
  | blank {piece : List Char} {pieces : List (List Char)} {entries : List (String × Int)}
      (h : AllOf isBlank piece) (rest : Renders pieces entries) : Renders (piece :: pieces) entries
  | entry {before between padding after : List Char} {pieces : List (List Char)}
      {entries : List (String × Int)} {label : String} {n : Int} (hbefore : AllOf isBlank before)
      (hbetween : AllOf isBlank between) (hpadding : AllOf isPadding padding)
      (hafter : AllOf isBlank after) (rest : Renders pieces entries) :
      Renders ((before ++ label.toList ++ between ++ '=' :: padding ++ (toString n).toList ++ after)
        :: pieces) ((label, n) :: entries)

namespace IsPlain

variable {name : String} {before between padding after : List Char}

/-- A label and a number are found wherever the blanks are. -/
theorem assigns (h : IsPlain name) (hbefore : AllOf isBlank before)
    (hbetween : AllOf isBlank between) (hafter : AllOf isBlank after) (padding : List Char)
    (m : Nat) :
    Assigns (before ++ name.toList ++ between ++ '=' :: padding ++ (toString m).toList ++ after)
      name.toList (padding ++ (toString m).toList) := by
  obtain ⟨ds, hliteral, -⟩ := integerLiteral_toString m
  have hdigits : Bare isBlank (toString m).toList :=
    hliteral.bare (by decide) (by decide) fun _ _ hd => isBlank_of_digitValue? hd
  have hsome : (toString m).toList ≠ [] := by
    rw [Nat.toString_eq_repr, Nat.toList_repr]
    exact Nat.toDigits_ne_nil
  have hlabel : name.toList ≠ [] := fun hnil => h.named (String.toList_eq_nil_iff.mp hnil)
  have hitem : Bare isBlank (name.toList ++ (between ++ '=' :: padding) ++ (toString m).toList) :=
    h.bare.append hdigits hlabel hsome _
  refine ⟨name.toList ++ between, ⟨?_, before, after, hbefore, hafter, ?_⟩, ?_,
    ⟨h.bare, [], between, allOf_nil, hbetween, by simp⟩, hlabel⟩
  · simpa only [List.append_assoc, List.cons_append] using hitem
  · simp only [List.append_assoc, List.cons_append]
  · rw [List.mem_append, not_or]
    exact ⟨h.noEquals, hbetween.not_mem (by decide)⟩

theorem noComma_piece (h : IsPlain name) (hbefore : AllOf isBlank before)
    (hbetween : AllOf isBlank between) (hpadding : AllOf isPadding padding)
    (hafter : AllOf isBlank after) (m : Nat) :
    ',' ∉ before ++ name.toList ++ between ++ '=' :: padding ++ (toString m).toList ++ after := by
  have hdigits : ',' ∉ (toString m).toList := by
    rw [Nat.toString_eq_repr, Nat.toList_repr]
    intro hmem
    cases Nat.isDigit_of_mem_toDigits (by decide) (by decide) hmem
  have hpadding' : ',' ∉ padding := hpadding.not_mem (by decide)
  simp only [List.mem_append, List.mem_cons, not_or]
  exact ⟨⟨⟨⟨⟨hbefore.not_mem (by decide), h.noComma⟩,
    hbetween.not_mem (by decide)⟩, by decide, hpadding'⟩, hdigits⟩,
    hafter.not_mem (by decide)⟩

end IsPlain

theorem IsListable.exists_nat {label : String} (h : IsListable label n) :
    ∃ m : Nat, n = m ∧ m < Nat.pow 10 digitLimit := by
  obtain ⟨m, rfl⟩ := Int.eq_ofNat_of_zero_le (Int.le_of_lt h.pos)
  exact ⟨m, rfl, Int.ofNat_lt.mp h.lt⟩

namespace Renders

variable {entries : List (String × Int)}

theorem lists (h : Renders pieces entries)
    (hentries : ∀ entry ∈ entries, IsListable entry.1 entry.2) : Lists pieces entries := by
  induction h with
  | nil => exact .nil
  | blank hblank _ ih => exact .blank hblank (ih hentries)
  | entry hbefore hbetween hpadding hafter _ ih =>
    obtain ⟨hentry, hrest⟩ := List.forall_mem_cons.mp hentries
    obtain ⟨m, rfl, hm⟩ := hentry.exists_nat
    exact .entry ⟨_, hentry.plain.assigns hbefore hbetween hafter _ m,
      writesInteger_toString hpadding hm⟩ hentry.pos (ih hrest)

theorem noComma (h : Renders pieces entries)
    (hentries : ∀ entry ∈ entries, IsListable entry.1 entry.2) : ∀ piece ∈ pieces, ',' ∉ piece := by
  induction h with
  | nil => simp
  | blank hblank _ ih =>
    exact List.forall_mem_cons.mpr ⟨hblank.not_mem (by decide), ih hentries⟩
  | entry hbefore hbetween hpadding hafter _ ih =>
    obtain ⟨hentry, hrest⟩ := List.forall_mem_cons.mp hentries
    obtain ⟨m, rfl, -⟩ := hentry.exists_nat
    exact List.forall_mem_cons.mpr
      ⟨hentry.plain.noComma_piece hbefore hbetween hpadding hafter m, ih hrest⟩

end Renders

theorem sizes_of_pieces (hcommas : ∀ piece ∈ pieces, ',' ∉ piece) :
    sizes (String.ofList ([','].intercalate pieces)) = (sizesOf pieces).map Table.ofPairs := by
  rw [sizes_eq, String.toList_ofList]
  cases pieces with
  | nil => rfl
  | cons piece pieces => rw [splitOn_intercalate (List.cons_ne_nil _ _) hcommas]

/-- A table that has been written as a list is read back. -/
theorem sizes_of_renders {table : Table Int} (h : Renders pieces table.entries)
    (hnodup : (table.entries.map Prod.fst).Nodup)
    (hentries : ∀ entry ∈ table.entries, IsListable entry.1 entry.2) :
    sizes (String.ofList ([','].intercalate pieces)) = .ok table := by
  rw [sizes_of_pieces (h.noComma hentries), sizesOf_eq_ok.mpr (h.lists hentries), Except.map,
    Table.ofPairs_of_nodup hnodup]

/-- A number with too many digits is not read back. -/
theorem sizes_of_tooLong {name : String} {m : Nat} (hname : IsPlain name)
    (hm : ¬m < Nat.pow 10 digitLimit) :
    sizes (name ++ "=" ++ toString m) = .error (.invalidSize name (toString m)) := by
  have hno : ∀ n, ¬WritesInteger (toString m).toList n := by
    intro n hn
    have hread := readInteger_eq_ok.mpr hn
    rw [readInteger_toString, if_neg hm] at hread
    cases hread
  have hassigns : Assigns (name ++ "=" ++ toString m).toList name.toList (toString m).toList := by
    simpa using hname.assigns allOf_nil allOf_nil allOf_nil [] m
  have hcommas : ',' ∉ (name ++ "=" ++ toString m).toList := by
    simpa using hname.noComma_piece allOf_nil allOf_nil allOf_nil allOf_nil m
  have hoffends := Offends.invalidSize hassigns hno
  rw [String.ofList_toList, String.ofList_toList] at hoffends
  have hfirst : FirstOffends [(name ++ "=" ++ toString m).toList] _ :=
    ⟨[], _, [], rfl, by simp, hoffends⟩
  rw [sizes_eq, splitOn_of_not_mem hcommas, sizesOf_eq_error.mpr hfirst, Except.map]

end Contraction.CommandLine
