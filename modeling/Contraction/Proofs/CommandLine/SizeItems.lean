import Contraction.CommandLine.Lists
import Contraction.Proofs.Number.IntegerLiterals

/-!
# Sizes on the command line

A piece of a list of sizes has to write a size: a label, an equals sign behind it, and an integer
above zero behind the first one (`WritesSize`). Otherwise it is blank, or there are three things
that may be wrong with it (`Offends`). What reading an item gives is what its piece writes
(`sizeEntry_eq_ok`) or what is wrong with it (`sizeEntry_eq_error`).
-/

namespace Contraction.CommandLine

open Number Text

variable {piece front label value : List Char} {n : Int}

/-! ## Label and value -/

/-- A piece has a label in front of its first equals sign, and a value behind it. Blanks do not
count around the label and around the whole. -/
def Assigns (piece label value : List Char) : Prop :=
  ∃ front, Padded isBlank (front ++ '=' :: value) piece ∧ '=' ∉ front ∧
    Padded isBlank label front ∧ label ≠ []

/-- A piece writes a size for a label. -/
def WritesSize (piece : List Char) (label : String) (n : Int) : Prop :=
  ∃ value, Assigns piece label.toList value ∧ WritesInteger value n

/-- Why a piece writes no size above zero, though it is not blank. -/
inductive Offends (piece : List Char) : SizesError → Prop where
  | invalidEntry {item : List Char} (h : Padded isBlank item piece) (hitem : item ≠ [])
      (hno : ∀ label value, ¬Assigns piece label value) :
      Offends piece (.invalidEntry (String.ofList item))
  | invalidSize {label value : List Char} (h : Assigns piece label value)
      (hno : ∀ n, ¬WritesInteger value n) :
      Offends piece (.invalidSize (String.ofList label) (String.ofList value))
  | notPositive {label : String} {n : Int} (h : WritesSize piece label n) (hn : n ≤ 0) :
      Offends piece (.notPositive label)

theorem Assigns.not_blank (h : Assigns piece label value) : ¬AllOf isBlank piece := by
  obtain ⟨front, hpadded, -⟩ := h
  intro hblank
  have hnothing := hpadded.eq.symm.trans (trimList_eq_nil.mpr hblank)
  cases front <;> cases hnothing

theorem WritesSize.not_blank {label : String} (h : WritesSize piece label n) :
    ¬AllOf isBlank piece := by
  obtain ⟨value, hassigns, -⟩ := h
  exact hassigns.not_blank

theorem Offends.not_blank {error : SizesError} (h : Offends piece error) :
    ¬AllOf isBlank piece := by
  cases h with
  | invalidEntry h hitem => exact fun hblank => hitem (h.eq.symm.trans (trimList_eq_nil.mpr hblank))
  | invalidSize h => exact h.not_blank
  | notPositive h => exact h.not_blank

/-! ## Reading an item -/

/-- The first equals sign is where the text in front of it has none. -/
theorem takeWhile_equals (h : '=' ∉ front) :
    (front ++ '=' :: value).takeWhile (· != '=') = front ∧
      (front ++ '=' :: value).dropWhile (· != '=') = '=' :: value := by
  have hall : ∀ c ∈ front, (c != '=') = true := by
    intro c hc
    refine bne_iff_ne.mpr ?_
    rintro rfl
    exact h hc
  rw [List.takeWhile_append_of_pos hall, List.dropWhile_append_of_pos hall]
  exact ⟨List.append_nil front, rfl⟩

theorem sizeEntry_of_assigns (h : Assigns piece label value) : sizeEntry (trimList isBlank piece) =
    match integer? (String.ofList value) with
    | none => .error (.invalidSize (String.ofList label) (String.ofList value))
    | some size =>
      if size ≤ 0 then .error (.notPositive (String.ofList label))
      else .ok (String.ofList label, size) := by
  obtain ⟨front, hpadded, hfront, hlabel, hne⟩ := h
  obtain ⟨htake, hdrop⟩ := @takeWhile_equals _ value hfront
  have hnamed : (String.ofList label).isEmpty = false := by
    rw [← Bool.not_eq_true, String.isEmpty_iff]
    exact fun hempty => hne (String.ofList_eq_empty_iff.mp hempty)
  rw [hpadded.eq, sizeEntry, htake, hdrop, hlabel.eq]
  dsimp only
  rw [hnamed]
  rfl

theorem sizeEntry_of_writesSize {label : String} (h : WritesSize piece label n) :
    sizeEntry (trimList isBlank piece) =
      if n ≤ 0 then .error (.notPositive label) else .ok (label, n) := by
  obtain ⟨value, hassigns, hwrites⟩ := h
  have hvalue : integer? (String.ofList value) = some n := by
    rw [integer?_eq_some_iff, String.toList_ofList]
    exact hwrites
  rw [sizeEntry_of_assigns hassigns, hvalue, String.ofList_toList]

theorem sizeEntry_of_not_writesInteger (h : Assigns piece label value)
    (hno : ∀ n, ¬WritesInteger value n) : sizeEntry (trimList isBlank piece) =
      .error (.invalidSize (String.ofList label) (String.ofList value)) := by
  have hvalue : integer? (String.ofList value) = none := by
    rw [integer?_eq_none_iff, String.toList_ofList]
    exact hno
  rw [sizeEntry_of_assigns h, hvalue]

theorem sizeEntry_of_not_assigns (h : ∀ label value, ¬Assigns piece label value) :
    sizeEntry (trimList isBlank piece) =
      .error (.invalidEntry (String.ofList (trimList isBlank piece))) := by
  unfold sizeEntry
  dsimp only
  split
  · rfl
  · next c value hdrop =>
    -- what is in front of the equals sign is blank, or the piece would have a label and a value
    obtain rfl : c = '=' := by
      have hhead := head?_dropWhile (congrArg List.head? hdrop)
      simpa using hhead
    let front := (trimList isBlank piece).takeWhile (· != '=')
    have hitem : front ++ '=' :: value = trimList isBlank piece := by
      rw [← hdrop]
      exact List.takeWhile_append_dropWhile
    have hfront : '=' ∉ front := fun hmem => by simpa using List.mem_takeWhile_imp hmem
    have hblank : trimList isBlank front = [] := by
      by_contra hne
      refine h (trimList isBlank front) value ⟨front, ?_, hfront, trimList_eq_iff.mp rfl, hne⟩
      rw [hitem]
      exact trimList_eq_iff.mp rfl
    have hempty : (String.ofList (trimList isBlank front)).isEmpty = true := by
      rw [hblank]
      rfl
    rw [if_pos hempty]

/-- A piece assigns nothing, or something that is no integer, or it writes a size. -/
theorem assigns_cases (piece : List Char) : (∀ label value, ¬Assigns piece label value) ∨
    (∃ label value, Assigns piece label value ∧ ∀ n, ¬WritesInteger value n) ∨
    ∃ label n, WritesSize piece label n := by
  by_cases hassigns : ∃ label value, Assigns piece label value
  · obtain ⟨label, value, hassigns⟩ := hassigns
    by_cases hwrites : ∃ n, WritesInteger value n
    · obtain ⟨n, hn⟩ := hwrites
      refine Or.inr (Or.inr ⟨String.ofList label, n, value, ?_, hn⟩)
      rw [String.toList_ofList]
      exact hassigns
    · exact Or.inr (Or.inl ⟨label, value, hassigns, fun n hn => hwrites ⟨n, hn⟩⟩)
  · exact Or.inl fun label value h => hassigns ⟨label, value, h⟩

/-- An item gives the size that its piece writes, if this is above zero. -/
theorem sizeEntry_eq_ok {label : String} : sizeEntry (trimList isBlank piece) = .ok (label, n) ↔
    WritesSize piece label n ∧ 0 < n := by
  constructor
  · intro h
    rcases assigns_cases piece with hno | ⟨name, value, hassigns, hno⟩ | ⟨name, m, hwrites⟩
    · cases (sizeEntry_of_not_assigns hno).symm.trans h
    · cases (sizeEntry_of_not_writesInteger hassigns hno).symm.trans h
    · rw [sizeEntry_of_writesSize hwrites] at h
      split at h
      · cases h
      · next hpos =>
        obtain ⟨rfl, rfl⟩ := Prod.mk.inj (Except.ok.inj h)
        exact ⟨hwrites, by omega⟩
  · rintro ⟨hwrites, hpos⟩
    rw [sizeEntry_of_writesSize hwrites, if_neg (by omega)]

/-- Of a piece that is not blank, an item fails with what is wrong with it. -/
theorem sizeEntry_eq_error {error : SizesError} (hpiece : ¬AllOf isBlank piece) :
    sizeEntry (trimList isBlank piece) = .error error ↔ Offends piece error := by
  constructor
  · intro h
    rcases assigns_cases piece with hno | ⟨name, value, hassigns, hno⟩ | ⟨name, m, hwrites⟩
    · obtain rfl := Except.error.inj ((sizeEntry_of_not_assigns hno).symm.trans h)
      exact .invalidEntry (trimList_eq_iff.mp rfl) (mt trimList_eq_nil.mp hpiece) hno
    · obtain rfl := Except.error.inj ((sizeEntry_of_not_writesInteger hassigns hno).symm.trans h)
      exact .invalidSize hassigns hno
    · rw [sizeEntry_of_writesSize hwrites] at h
      split at h
      · next hle =>
        obtain rfl := Except.error.inj h
        exact .notPositive hwrites hle
      · cases h
  · intro h
    cases h with
    | invalidEntry h hitem hno => rw [sizeEntry_of_not_assigns hno, h.eq]
    | invalidSize h hno => exact sizeEntry_of_not_writesInteger h hno
    | notPositive h hn => rw [sizeEntry_of_writesSize h, if_pos hn]

end Contraction.CommandLine
