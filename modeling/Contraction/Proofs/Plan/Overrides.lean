import Contraction.Proofs.Plan.Completion

/-!
# Sizes entered again and again

Sizes are entered all or none. The integers are checked first, each by itself, and entered when all
have been accepted; then every node gets its sizes anew, so that nothing is left of those it had. So
entering two tables, one after the other, is entering the first overridden by the second, and
entering a table again does nothing (`setSizes_override`).

`setSizesInPlace` enters the sizes into a plan as it stands, one step after the other. A fault on
the way leaves the plan to what has been done up to then, and this is nothing
(`setSizesInPlace_run`).
-/

namespace Contraction

/-- A number that is equal to a positive integer. -/
def Datum.IsSize (value : Datum) : Prop :=
  ∃ n, 0 < n ∧ value.equalsInt n = true

/-- The integer that a value is as a size. -/
def Datum.asSize (value : Datum) : Int :=
  value.toInteger.toOption.getD 0

/-- All values are sizes. -/
def Table.AreSizes (given : Table Datum) : Prop :=
  ∀ entry ∈ given.entries, entry.2.IsSize

theorem Table.AreSizes.override {a b : Table Datum} (ha : a.AreSizes) (hb : b.AreSizes) :
    (a.override b).AreSizes := by
  rintro ⟨key, value⟩ hmem
  rcases mem_of_mem_insertAll hmem with h | h
  · exact ha _ h
  · exact hb _ h

namespace Plan

variable {p : Plan} {given a b : Table Datum} {name : String} {value : Datum}

/-! ## All or none -/

theorem sizeFrom_of_isSize (h : value.IsSize) : sizeFrom name value = .ok value.asSize := by
  obtain ⟨n, hpos, hequal⟩ := h
  unfold Datum.asSize
  rw [Datum.toInteger_of_equalsInt hequal]
  exact sizeFrom_eq_ok.mpr ⟨hpos, hequal⟩

/-- If all values are sizes, the integers that are entered are these. -/
theorem checkedSizes_of_areSizes (h : given.AreSizes) :
    checkedSizes given = .ok (given.map Datum.asSize).entries := by
  unfold checkedSizes
  refine mapM_eq_ok.mpr ?_
  show _ = (given.entries.map _).map _
  rw [List.map_map]
  refine List.map_congr_left fun ⟨name, value⟩ hentry => ?_
  have hsize : sizeFrom name value = .ok value.asSize := sizeFrom_of_isSize (h _ hentry)
  show (do return (name, ← sizeFrom name value)) = _
  rw [hsize]
  rfl

theorem setSizes_of_areSizes (h : given.AreSizes) :
    p.setSizes given = .ok (p.withSizes (given.map Datum.asSize).entries) := by
  rw [setSizes_eq, checkedSizes_of_areSizes h]
  rfl

/-- Sizes are entered only if all of them are accepted. -/
theorem areSizes_of_setSizes {p' : Plan} (h : p.setSizes given = .ok p') : given.AreSizes := by
  rintro ⟨name, value⟩ hmem
  obtain ⟨n, hn⟩ := sizeFrom_of_setSizes h hmem
  exact ⟨n, sizeFrom_eq_ok.mp hn⟩

/-! ## One table after another -/

/-- Nothing is left of the sizes that the nodes had. -/
theorem withSizes_withSizes (p : Plan) (first second : List (String × Int)) :
    (p.withSizes first).withSizes second =
      spreadSizes { p with sizes := (p.sizes.insertAll first).insertAll second } := by
  unfold withSizes spreadSizes
  dsimp only
  rw [Branch.mapEntries_mapEntries]
  rfl

/-! ## In place -/

/-- Checks sizes one by one and enters the integers into a table of their own. -/
def checkInto (checked : Table Int) : List (String × Datum) → EStateM Fault Plan (Table Int)
  | [] => return checked
  | (name, value) :: sizes => do
    let size ← MonadExcept.ofExcept (sizeFrom name value)
    checkInto (checked.insert name size) sizes

/-- Enters sizes into a plan as it stands: checks them, merges the integers into the table, and
gives every node its sizes. -/
def setSizesInPlace (given : Table Datum) : EStateM Fault Plan Unit := do
  let checked ← checkInto .empty given.entries
  modify fun p => { p with sizes := p.sizes.override checked }
  modify spreadSizes

theorem checkedSizes_cons (name : String) (value : Datum) (sizes : List (String × Datum)) :
    checkedSizes ⟨(name, value) :: sizes⟩ = do
      let size ← sizeFrom name value
      let pairs ← checkedSizes ⟨sizes⟩
      return (name, size) :: pairs := by
  unfold checkedSizes
  rw [List.mapM_cons]
  dsimp only
  cases sizeFrom name value <;> rfl

/-- Checking leaves the plan alone, also where it fails. -/
theorem checkInto_run (checked : Table Int) (sizes : List (String × Datum)) (p : Plan) :
    (checkInto checked sizes).run p = match checkedSizes ⟨sizes⟩ with
      | .ok pairs => .ok (checked.insertAll pairs) p
      | .error fault => .error fault p := by
  induction sizes generalizing checked with
  | nil => rfl
  | cons entry sizes ih =>
    obtain ⟨name, value⟩ := entry
    rw [checkedSizes_cons]
    unfold checkInto
    cases sizeFrom name value with
    | error fault => rfl
    | ok size =>
      show (checkInto (checked.insert name size) sizes).run p = _
      rw [ih]
      cases checkedSizes ⟨sizes⟩ <;> rfl

/-- Entering sizes in place gives the same plan, or leaves the plan as it was. -/
theorem setSizesInPlace_run (p : Plan) (given : Table Datum) :
    (setSizesInPlace given).run p = match p.setSizes given with
      | .ok p' => .ok () p'
      | .error fault => .error fault p := by
  have hcheck := checkInto_run .empty given.entries p
  have hrun : (setSizesInPlace given).run p =
      match (checkInto .empty given.entries).run p with
      | .ok checked p => .ok () (spreadSizes { p with sizes := p.sizes.override checked })
      | .error fault p => .error fault p := by
    show EStateM.bind (checkInto .empty given.entries) _ p = _
    unfold EStateM.bind EStateM.run
    cases checkInto .empty given.entries p <;> rfl
  rw [hrun, hcheck, setSizes_eq]
  cases checkedSizes given with
  | error fault => rfl
  | ok pairs =>
    have htable : p.sizes.override (.ofPairs pairs) = p.sizes.insertAll pairs :=
      Table.override_ofPairs p.sizes pairs
    show EStateM.Result.ok () (spreadSizes { p with sizes := p.sizes.override (.ofPairs pairs) }) =
      .ok () (p.withSizes pairs)
    rw [htable]
    rfl

/-- Entering one table of sizes, in which no key stands twice, and then another is entering the
first overridden by the second: the table is then overridden by both, and every node has the sizes
that it says. Entering a table again changes nothing. In place, sizes are entered if all of them are
accepted; whichever is not, the plan stays as it was. -/
theorem setSizes_override (p : Plan) :
    (∀ a b : Table Datum, (a.entries.map Prod.fst).Nodup → a.AreSizes → b.AreSizes →
      ∃ first both, p.setSizes a = .ok first ∧ first.setSizes b = .ok both ∧
        p.setSizes (a.override b) = .ok both ∧ first.setSizes a = .ok first ∧
        both.sizes = (p.sizes.override (a.map Datum.asSize)).override (b.map Datum.asSize) ∧
        both.root = p.root.mapEntries fun e => { e with
          sizes := some (e.labels.map fun label => .int ((label.bind both.sizes.get?).getD 2)) }) ∧
    ∀ given : Table Datum,
      (given.AreSizes → ∃ p', p.setSizes given = .ok p' ∧
        (setSizesInPlace given).run p = .ok () p') ∧
      (¬given.AreSizes → ∃ fault, p.setSizes given = .error fault ∧
        (setSizesInPlace given).run p = .error fault p) := by
  refine ⟨fun a b hkeys ha hb => ?_, fun given => ⟨fun h => ?_, fun h => ?_⟩⟩
  · have hints : ((a.map Datum.asSize).entries.map Prod.fst).Nodup := by
      rw [Table.keys_map]
      exact hkeys
    refine ⟨_, _, setSizes_of_areSizes ha, setSizes_of_areSizes hb, ?_, ?_, rfl, ?_⟩
    · rw [setSizes_of_areSizes (ha.override hb), Table.map_override, withSizes_withSizes,
        ← Table.insertAll_insertAll hints]
      rfl
    · rw [setSizes_of_areSizes ha, withSizes_withSizes, Table.insertAll_self hints]
      rfl
    · rw [withSizes_withSizes, spreadSizes_root]
      exact congrArg p.root.mapEntries (funext (spreadEntry_eq _))
  · refine ⟨_, setSizes_of_areSizes h, ?_⟩
    rw [setSizesInPlace_run, setSizes_of_areSizes h]
  · cases hset : p.setSizes given with
    | ok p' => exact absurd (areSizes_of_setSizes hset) h
    | error fault =>
      refine ⟨fault, rfl, ?_⟩
      rw [setSizesInPlace_run, hset]

/-- The label that is in both tables keeps its place and takes the later size. A size of zero that
comes after one that is accepted leaves the earlier table, and what the node lists. -/
theorem setSizes_override_shared :
    let p : Plan := { root := .node { id := "top", labels := [some "i", some "k"] } .absent .absent
                      sizes := ⟨[("i", 3)]⟩ }
    let a : Table Datum := ⟨[("k", .int 2), ("i", .int 5)]⟩
    let b : Table Datum := ⟨[("j", .bool true), ("k", .int 7)]⟩
    let bad : Table Datum := ⟨[("i", .int 4), ("k", .int 0)]⟩
    ((a.entries.map Prod.fst).Nodup ∧ a.AreSizes ∧ b.AreSizes ∧ ¬bad.AreSizes) ∧
      (∃ first both, p.setSizes a = .ok first ∧ first.setSizes b = .ok both ∧
        p.setSizes (a.override b) = .ok both ∧
        both.sizes.entries = [("i", 5), ("k", 7), ("j", 1)] ∧
        both.root = p.root.mapEntries fun e => { e with
          sizes := some (e.labels.map fun label => .int ((label.bind both.sizes.get?).getD 2)) }) ∧
      ∃ fault, (setSizesInPlace bad).run p = .error fault p := by
  intro p a b bad
  have hkeys : (a.entries.map Prod.fst).Nodup := by decide
  have ha : a.AreSizes := by
    intro entry hentry
    rcases List.mem_cons.mp hentry with rfl | hentry
    · exact ⟨2, by decide, by decide⟩
    · obtain rfl := List.mem_singleton.mp hentry
      exact ⟨5, by decide, by decide⟩
  have hb : b.AreSizes := by
    intro entry hentry
    rcases List.mem_cons.mp hentry with rfl | hentry
    · exact ⟨1, by decide, by decide⟩
    · obtain rfl := List.mem_singleton.mp hentry
      exact ⟨7, by decide, by decide⟩
  have hbad : ¬bad.AreSizes := by
    intro h
    obtain ⟨n, hpos, hequal⟩ := h ("k", .int 0) (List.mem_cons_of_mem _ List.mem_cons_self)
    have hzero : (0 : Int) = n := eq_of_beq hequal
    omega
  obtain ⟨hentered, hplace⟩ := setSizes_override p
  obtain ⟨first, both, hfirst, hboth, hoverride, -, hsizes, hroot⟩ := hentered a b hkeys ha hb
  obtain ⟨fault, -, hfault⟩ := (hplace bad).2 hbad
  refine ⟨⟨hkeys, ha, hb, hbad⟩, ⟨first, both, hfirst, hboth, hoverride, ?_, hroot⟩, fault, hfault⟩
  rw [hsizes]
  decide +kernel

end Plan

end Contraction
