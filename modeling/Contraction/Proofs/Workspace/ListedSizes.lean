import Contraction.CommandLine
import Contraction.Proofs.CommandLine.SizeLists
import Contraction.Proofs.Workspace.GivenSizes

/-!
# Sizes from the command line

What becomes of a list of sizes: one that is wrong ends the command, and the sizes in any other can
be entered with every text. `sizes_listed` tells all that there is to a list.
-/

namespace Contraction.CommandLine

open Number Text

variable {text : String} {table : Table Int} {expression : Option String} {plan : Plan}
  {w : Workspace} {n : Int}

/-- What is wrong with a list of sizes ends the command. -/
theorem respond_of_sizes_error {error : SizesError} {settings : Settings} {config : Config}
    (hsizes : sizes text = .error error) (hsettings : settings.check = .ok config)
    (expression : String) (asDocument verbose : Bool) :
    respond ⟨verbose, some (.explain expression (some text) settings asDocument)⟩ =
      .ok ⟨1, "", some (error.message ++ "\n")⟩ := by
  have hcommand : runCommand (.explain expression (some text) settings asDocument) =
      .ok ⟨.error error.message, []⟩ := by
    rw [runCommand, runExplain, hsettings]
    dsimp only
    rw [Option.getD_some, hsizes]
  have hnothing : shownNotices verbose [] = "" := by
    cases verbose <;> rfl
  rw [respond]
  dsimp only
  rw [hcommand, Except.map]
  dsimp only
  rw [hnothing, String.empty_append]

theorem pos_of_sizes {name : String} (hsizes : sizes text = .ok table)
    (hsize : table.get? name = some n) : 0 < n := by
  obtain ⟨entries, hentries, rfl⟩ := except_map_eq_ok.mp hsizes
  exact (sizesOf_eq_ok.mp hentries).pos _ (Table.mem_of_mem_ofPairs (Table.mem_of_find? hsize))

theorem nodup_of_sizes (hsizes : sizes text = .ok table) :
    (table.entries.map Prod.fst).Nodup := by
  obtain ⟨entries, -, rfl⟩ := except_map_eq_ok.mp hsizes
  exact Table.nodup_insertAll (t := .empty) List.nodup_nil

/-- The sizes in a list can be entered with any text. -/
theorem exists_sized (h : w.WellFormed) (hsizes : sizes text = .ok table)
    (hplan : Plan.ofText expression = .ok plan) :
    ∃ sized, w.sized plan (table.map .int) = .ok sized := by
  have hgiven : ((table.map Datum.int).entries.map Prod.fst).Nodup := by
    rw [Table.keys_map]
    exact nodup_of_sizes hsizes
  have hpos : ∀ name value, plan.IsGiven (table.map .int) name value →
      ∃ n, value.toInteger = .ok n ∧ 0 < n := by
    rintro name value ⟨-, hvalue⟩
    rw [Table.get?_map] at hvalue
    obtain ⟨n, hsize, rfl⟩ := Option.map_eq_some_iff.mp hvalue
    exact ⟨n, rfl, pos_of_sizes hsizes hsize⟩
  rcases Workspace.readText_given_cases h hplan hgiven with
    ⟨name, value, fault, hname, hfault, -⟩ | ⟨name, value, n, _, hname, hn, hle, -⟩ |
    ⟨sized, hsized, -⟩
  · obtain ⟨n, hn, -⟩ := hpos name value hname
    cases hn.symm.trans hfault
  · obtain ⟨m, hm, hpos⟩ := hpos name value hname
    obtain rfl := Except.ok.inj (hm.symm.trans hn)
    omega
  · exact ⟨sized, hsized⟩

/-- So no text is refused for the sizes in a list. -/
theorem readText_ne_setting (h : w.WellFormed) (hsizes : sizes text = .ok table)
    (expression : Option String) (error : SettingError) :
    (w.readText expression (table.map .int)).outcome ≠ .ok (some (.setting error)) := by
  intro hrefused
  cases hplan : Plan.ofText expression with
  | error misreading =>
    rw [Workspace.readText, hplan] at hrefused
    cases hrefused
  | ok plan =>
    obtain ⟨sized, hsized⟩ := exists_sized h hsizes hplan
    rw [(Workspace.readText_of_sized hplan hsized).2] at hrefused
    obtain ⟨_, -, hnone⟩ := except_map_eq_ok.mp hrefused
    cases hnone

/-- A text is a list of sizes exactly if every piece between its commas is blank or writes a label,
an equals sign behind it, and an integer above zero behind the first one. Otherwise the first piece
that does not decides what is wrong, and this ends the command. A list gives each label the last of
its sizes, at the place where it first came. A table that has been written as a list, with blanks
and blank pieces wherever they may be, is read back. No text that is read with the sizes of a list
is refused for them. -/
theorem sizes_listed (text : String) :
    (∃ pieces, pieces ≠ [] ∧ text.toList = [','].intercalate pieces ∧
      (∀ piece ∈ pieces, ',' ∉ piece) ∧
      ((∃ table, sizes text = .ok table) ↔ ∀ piece ∈ pieces, Sound piece) ∧
      (∀ error, sizes text = .error error ↔ FirstOffends pieces error) ∧
      ∀ table, sizes text = .ok table → ∃ entries, Lists pieces entries ∧
        table.entries.map Prod.fst = (entries.map Prod.fst).eraseDups ∧
        ∀ label, table.get? label = Table.find? label entries.reverse) ∧
    (∀ error settings config, sizes text = .error error → settings.check = .ok config →
      ∀ expression asDocument verbose,
        respond ⟨verbose, some (.explain expression (some text) settings asDocument)⟩ =
          .ok ⟨1, "", some (error.message ++ "\n")⟩) ∧
    (∀ pieces table, text.toList = [','].intercalate pieces → Renders pieces table.entries →
      (table.entries.map Prod.fst).Nodup →
      (∀ entry ∈ table.entries, IsListable entry.1 entry.2) → sizes text = .ok table) ∧
    ∀ table (admits : Action → Prop) (w : Workspace), sizes text = .ok table →
      w.ReachedBy admits → ∀ expression,
      (∀ plan, Plan.ofText expression = .ok plan →
        ∃ sized, w.sized plan (table.map .int) = .ok sized) ∧
      ∀ error, (w.readText expression (table.map .int)).outcome ≠ .ok (some (.setting error)) := by
  refine ⟨?_, ?_, ?_, ?_⟩
  · obtain ⟨pieces, hne, htext, hcommas⟩ := exists_pieces ',' text.toList
    have hsizes : sizes text = (sizesOf pieces).map Table.ofPairs := by
      rw [← sizes_of_pieces hcommas, ← htext, String.ofList_toList]
    refine ⟨pieces, hne, htext, hcommas, ?_, fun error => ?_, fun table htable => ?_⟩
    · rw [hsizes, ← exists_lists_iff]
      constructor
      · rintro ⟨table, htable⟩
        obtain ⟨entries, hentries, -⟩ := except_map_eq_ok.mp htable
        exact ⟨entries, sizesOf_eq_ok.mp hentries⟩
      · rintro ⟨entries, hentries⟩
        exact ⟨_, except_map_eq_ok.mpr ⟨entries, sizesOf_eq_ok.mpr hentries, rfl⟩⟩
    · rw [hsizes, ← sizesOf_eq_error]
      exact except_map_eq_error
    · obtain ⟨entries, hentries, rfl⟩ := except_map_eq_ok.mp (hsizes.symm.trans htable)
      exact ⟨entries, sizesOf_eq_ok.mp hentries, Table.keys_ofPairs entries,
        Table.get?_ofPairs entries⟩
  · intro error settings config hsizes hsettings expression asDocument verbose
    exact respond_of_sizes_error hsizes hsettings expression asDocument verbose
  · intro pieces table htext hrenders hnodup hentries
    have hread := sizes_of_renders hrenders hnodup hentries
    rw [← htext, String.ofList_toList] at hread
    exact hread
  · intro table admits w hsizes hw expression
    exact ⟨fun plan hplan => exists_sized hw.wellFormed hsizes hplan,
      readText_ne_setting hw.wellFormed hsizes expression⟩

example : sizes " i = 1_0 ,, j=3,i=+7 " = .ok ⟨[("i", 7), ("j", 3)]⟩ := by
  cbv

/-- A list with a blank piece and blanks in the others is read back and can be entered, and the
second piece of another one has no equals sign, which ends the command. -/
theorem sizes_listed_blanks : ∃ (w : Workspace) (config : Config),
    let table : Table Int := ⟨[("i", 3), ("j", 12)]⟩
    let pieces := [" i = 3".toList, [], " j=12 ".toList]
    w.ReachedBy (fun _ => True) ∧ Renders pieces table.entries ∧
      sizes " i = 3,, j=12 " = .ok table ∧
      (∀ error, (w.readText (some "[i,j]->[j,i]") (table.map .int)).outcome ≠
        .ok (some (.setting error))) ∧
      ({} : Settings).check = .ok config ∧ sizes "i=3, j" = .error (.invalidEntry "j") ∧
      respond ⟨false, some (.explain "[i]->[i]" (some "i=3, j") {} false)⟩ =
        .ok ⟨1, "", some ((SizesError.invalidEntry "j").message ++ "\n")⟩ := by
  obtain ⟨w, hw, -⟩ := Workspace.exists_reachedBy (fun _ => True) {} none .empty (fun _ => true)
    (by decide +kernel)
  have hblank : AllOf isBlank [' '] := by decide
  have hpadding : AllOf isPadding [' '] := by decide
  have hrenders : Renders [" i = 3".toList, [], " j=12 ".toList] [("i", 3), ("j", 12)] :=
    @Renders.entry [' '] [' '] [' '] [] _ _ "i" 3 hblank hblank hpadding allOf_nil
      (.blank allOf_nil
        (@Renders.entry [' '] [] [] [' '] _ _ "j" 12 hblank allOf_nil allOf_nil hblank .nil))
  have hlimit : ∀ k, 2 ≤ k → 100 ≤ Nat.pow 10 k := fun k hk =>
    Nat.pow_le_pow_right (n := 10) (by decide) hk
  have hentries : ∀ entry ∈ [("i", (3 : Int)), ("j", 12)], IsListable entry.1 entry.2 := by
    have hmany := hlimit digitLimit (by decide)
    refine List.forall_mem_cons.mpr ⟨?_, List.forall_mem_cons.mpr ⟨?_, by simp⟩⟩
    · exact ⟨⟨by decide, by decide, by decide, by decide⟩, by decide, by omega⟩
    · exact ⟨⟨by decide, by decide, by decide, by decide⟩, by decide, by omega⟩
  obtain ⟨-, -, hwritten, hentered⟩ := sizes_listed " i = 3,, j=12 "
  obtain ⟨-, hends, -⟩ := sizes_listed "i=3, j"
  have hread : sizes " i = 3,, j=12 " = .ok ⟨[("i", 3), ("j", 12)]⟩ :=
    hwritten _ ⟨[("i", 3), ("j", 12)]⟩ (by decide) hrenders (by decide) hentries
  have herror : sizes "i=3, j" = .error (.invalidEntry "j") := by cbv
  obtain ⟨config, hsettings, -⟩ := exists_ok_of_any
    (show ({} : Settings).check.toOption.any (fun _ => true) = true by decide +kernel)
  have hended := hends _ _ _ herror hsettings "[i]->[i]" false false
  exact ⟨w, config, hw, hrenders, hread, (hentered _ _ w hread hw _).2, hsettings, herror, hended⟩

/-- A number with too many digits is no size, though it is above zero, and neither is a digit with
an information separator between it and the equals sign, though this is a blank. -/
theorem sizes_listed_fails :
    let n := Nat.pow 10 digitLimit
    (0 < n ∧ (∃ ds, IntegerLiteral (toString n).toList ds n) ∧
      sizes ("z" ++ "=" ++ toString n) = .error (.invalidSize "z" (toString n))) ∧
    isBlank (Char.ofNat 0x1C) = true ∧
      sizes "i=\x1c3" = .error (.invalidSize "i" "\x1c3") := by
  intro n
  have hpos : ∀ k, 0 < Nat.pow 10 k := fun k => Nat.pow_pos (by decide)
  have hplain : IsPlain "z" := ⟨by decide, by decide, by decide, by decide⟩
  obtain ⟨ds, hliteral, -⟩ := integerLiteral_toString n
  exact ⟨⟨hpos digitLimit, ⟨ds, hliteral⟩, sizes_of_tooLong hplain (Nat.lt_irrefl n)⟩, by decide,
    by cbv⟩

end Contraction.CommandLine
