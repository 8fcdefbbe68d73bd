import Contraction.Table

/-!
# Tables entered into tables

The pairs that are entered into a table come into it one after the other, each at the place where
its key first came. What a key has afterwards is told by `get?_insertAll` and `get?_override`.

The order of the keys is decided by the first of the pairs with each key, and the values by the
last (`keys_ofPairs`, `get?_ofPairs`). So a table may be overridden by several others one by one or
by all of them at once (`insertAll_insertAll`): entering a table that has been built up from pairs,
in which no key stands twice, is entering these pairs.
-/

namespace Contraction

/-! ## First comings -/

section FirstComings

variable {α : Type} [BEq α] [LawfulBEq α] {xs : List α}

theorem nodup_eraseDups (xs : List α) : xs.eraseDups.Nodup := by
  match xs with
  | [] => exact List.nodup_nil
  | x :: xs =>
    have hshorter := List.length_filter_le (fun y => !y == x) xs
    rw [List.eraseDups_cons, List.nodup_cons, List.mem_eraseDups, List.mem_filter]
    exact ⟨fun h => by simp at h, nodup_eraseDups _⟩
termination_by xs.length
decreasing_by
  rw [List.length_cons]
  omega

theorem eraseDups_of_nodup (h : xs.Nodup) : xs.eraseDups = xs := by
  induction xs with
  | nil => rfl
  | cons x xs ih =>
    obtain ⟨hx, hxs⟩ := List.nodup_cons.mp h
    have hkept : xs.filter (fun y => !y == x) = xs := by
      refine List.filter_eq_self.mpr fun y hy => ?_
      have hne : y ≠ x := fun heq => hx (heq ▸ hy)
      rw [beq_false_of_ne hne]
      rfl
    rw [List.eraseDups_cons, hkept, ih hxs]

/-- What has come before does not depend on how often it came. -/
theorem eraseDups_eraseDups_append (xs ys : List α) :
    (xs.eraseDups ++ ys).eraseDups = (xs ++ ys).eraseDups := by
  have hsame : ys.removeAll xs.eraseDups = ys.removeAll xs := by
    refine List.filter_congr fun y _ => ?_
    rw [Bool.eq_iff_iff]
    simp
  rw [List.eraseDups_append, List.eraseDups_append, eraseDups_of_nodup (nodup_eraseDups xs), hsame]

end FirstComings

end Contraction

namespace Contraction.Table

variable {α β : Type} {t u : Table α} {key other : String} {value old : α}
  {entries pairs : List (String × α)}

/-! ## Entries and values -/

theorem mem_of_find? {entries : List (String × α)} (h : find? key entries = some value) :
    (key, value) ∈ entries := by
  induction entries with
  | nil => cases h
  | cons entry entries ih =>
    obtain ⟨k, v⟩ := entry
    rw [find?] at h
    split at h
    · next hk =>
      subst hk
      exact Option.some.inj h ▸ List.mem_cons_self
    · exact List.mem_cons_of_mem _ (ih h)

/-- Where each key stands once, every entry is found. -/
theorem get?_of_mem (hnodup : (t.entries.map Prod.fst).Nodup) (h : (key, value) ∈ t.entries) :
    t.get? key = some value := by
  obtain ⟨entries⟩ := t
  show find? key entries = some value
  induction entries with
  | nil => cases h
  | cons entry entries ih =>
    obtain ⟨hnew, hnodup⟩ := List.nodup_cons.mp hnodup
    rw [find?]
    rcases List.mem_cons.mp h with rfl | h
    · exact if_pos rfl
    · have hne : entry.1 ≠ key := by
        rintro rfl
        exact hnew (List.mem_map.mpr ⟨_, h, rfl⟩)
      rw [if_neg hne]
      exact ih hnodup h

theorem mem_put {k : String} {v : α} {entries : List (String × α)}
    (h : (key, value) ∈ put k v entries) : (key, value) = (k, v) ∨ (key, value) ∈ entries := by
  induction entries with
  | nil => exact Or.inl (List.mem_singleton.mp h)
  | cons entry entries ih =>
    rw [put] at h
    split at h
    · next hk =>
      rcases List.mem_cons.mp h with heq | hmem
      · exact Or.inl (hk ▸ heq)
      · exact Or.inr (List.mem_cons_of_mem _ hmem)
    · rcases List.mem_cons.mp h with heq | hmem
      · exact Or.inr (heq ▸ List.mem_cons_self)
      · exact (ih hmem).imp_right (List.mem_cons_of_mem _)

/-- Every entry comes of a pair. -/
theorem mem_of_mem_insertAll {pairs : List (String × α)}
    (h : (key, value) ∈ (t.insertAll pairs).entries) :
    (key, value) ∈ t.entries ∨ (key, value) ∈ pairs := by
  induction pairs generalizing t with
  | nil => exact Or.inl h
  | cons pair pairs ih =>
    rcases ih (t := t.insert pair.1 pair.2) h with hmem | hmem
    · rcases mem_put hmem with heq | hmem
      · exact Or.inr (heq ▸ List.mem_cons_self)
      · exact Or.inl hmem
    · exact Or.inr (List.mem_cons_of_mem _ hmem)

theorem mem_of_mem_ofPairs {pairs : List (String × α)}
    (h : (key, value) ∈ (ofPairs pairs).entries) : (key, value) ∈ pairs := by
  rcases mem_of_mem_insertAll h with hmem | hmem
  · cases hmem
  · exact hmem

/-- After pairs have been entered a key has the value of one of them, or, if it is in none, the one
that it had before. -/
theorem get?_insertAll (t : Table α) (pairs : List (String × α)) (key : String) :
    (∃ value, (key, value) ∈ pairs ∧ (t.insertAll pairs).get? key = some value) ∨
      (∀ value, (key, value) ∉ pairs) ∧ (t.insertAll pairs).get? key = t.get? key := by
  induction pairs generalizing t with
  | nil => exact Or.inr ⟨by simp, rfl⟩
  | cons pair pairs ih =>
    obtain ⟨k, v⟩ := pair
    rcases ih (t.insert k v) with ⟨value, hmem, hget⟩ | ⟨hnone, hget⟩
    · exact Or.inl ⟨value, List.mem_cons_of_mem _ hmem, hget⟩
    · by_cases hk : key = k
      · subst hk
        exact Or.inl ⟨v, List.mem_cons_self, hget.trans (get?_insert_self t key v)⟩
      · refine Or.inr ⟨fun value hmem => ?_, hget.trans (get?_insert_of_ne t hk v)⟩
        rcases List.mem_cons.mp hmem with heq | hmem
        · exact hk (Prod.mk.inj heq).1
        · exact hnone value hmem

theorem exists_mem_ofPairs {pairs : List (String × α)} (h : (key, value) ∈ pairs) :
    ∃ other, (key, other) ∈ (ofPairs pairs).entries := by
  rcases get?_insertAll empty pairs key with ⟨other, -, hget⟩ | ⟨hnone, -⟩
  · exact ⟨other, mem_of_find? hget⟩
  · exact absurd h (hnone value)

/-- A table has the values of another that overrides it, and its own for the other keys. -/
theorem get?_override {u : Table α} (hnodup : (u.entries.map Prod.fst).Nodup) :
    (t.override u).get? key = (u.get? key).or (t.get? key) := by
  rcases get?_insertAll t u.entries key with ⟨value, hmem, hget⟩ | ⟨hnone, hget⟩
  · rw [get?_of_mem hnodup hmem]
    exact hget
  · cases hfound : u.get? key with
    | none =>
      rw [Option.none_or]
      exact hget
    | some value => exact absurd (mem_of_find? hfound) (hnone value)

/-! ## One key -/

theorem mem_keys_put : other ∈ (put key value entries).map Prod.fst ↔
    other = key ∨ other ∈ entries.map Prod.fst := by
  induction entries with
  | nil =>
    rw [put, List.map_singleton, List.mem_singleton, List.map_nil, or_iff_left List.not_mem_nil]
  | cons entry entries ih =>
    unfold put
    split
    · next hk =>
      subst hk
      rw [List.map_cons, List.map_cons, List.mem_cons]
      exact ⟨fun h => h.imp_right Or.inr, fun h => h.elim Or.inl id⟩
    · rw [List.map_cons, List.map_cons, List.mem_cons, List.mem_cons, ih]
      exact or_left_comm

theorem nodup_put (h : (entries.map Prod.fst).Nodup) :
    ((put key value entries).map Prod.fst).Nodup := by
  induction entries with
  | nil => exact List.nodup_cons.mpr ⟨List.not_mem_nil, List.nodup_nil⟩
  | cons entry entries ih =>
    obtain ⟨hnew, hrest⟩ := List.nodup_cons.mp h
    unfold put
    split
    · next hk =>
      subst hk
      exact h
    · next hk =>
      refine List.nodup_cons.mpr ⟨fun hmem => ?_, ih hrest⟩
      exact (mem_keys_put.mp hmem).elim hk hnew

/-- Of two values for a key the last one stays. -/
theorem put_put : put key value (put key old entries) = put key value entries := by
  induction entries with
  | nil =>
    show put key value [(key, old)] = [(key, value)]
    exact if_pos rfl
  | cons entry entries ih =>
    by_cases hk : entry.1 = key
    · rw [put, if_pos hk, put, if_pos hk, put, if_pos hk]
    · rw [put, if_neg hk, put, if_neg hk, put, if_neg hk, ih]

/-- A key that is there already keeps its place, so it may get its value before or after another
key. -/
theorem put_comm {w : α} (hkey : key ∈ entries.map Prod.fst) (hne : other ≠ key) :
    put key value (put other w entries) = put other w (put key value entries) := by
  induction entries with
  | nil => cases hkey
  | cons entry entries ih =>
    by_cases hk : entry.1 = key
    · have hother : entry.1 ≠ other := fun h => hne (h.symm.trans hk)
      rw [put, if_neg hother, put, if_pos hk, put, if_pos hk, put, if_neg (hk ▸ hother)]
    · have hrest := (List.mem_cons.mp hkey).resolve_left (Ne.symm hk)
      by_cases hother : entry.1 = other
      · rw [put, if_pos hother, put, if_neg (hother ▸ hk), put, if_neg hk, put, if_pos hother]
      · rw [put, if_neg hother, put, if_neg hk, put, if_neg hk, put, if_neg hother, ih hrest]

theorem put_of_find? (h : find? key entries = some value) : put key value entries = entries := by
  induction entries with
  | nil => cases h
  | cons entry entries ih =>
    unfold find? at h
    unfold put
    split at h
    · next hk =>
      obtain rfl := Option.some.inj h
      rw [if_pos hk]
    · next hk => rw [if_neg hk, ih h]

/-! ## All pairs of a list -/

/-- A key that is there already and is in none of the pairs may be set before or after them. -/
theorem insertAll_insert (hkey : key ∈ t.entries.map Prod.fst) (hpairs : key ∉ pairs.map Prod.fst) :
    (t.insert key value).insertAll pairs = (t.insertAll pairs).insert key value := by
  induction pairs generalizing t with
  | nil => rfl
  | cons pair pairs ih =>
    rw [List.map_cons, List.mem_cons, not_or] at hpairs
    have hswap : (t.insert key value).insert pair.1 pair.2 =
        (t.insert pair.1 pair.2).insert key value :=
      congrArg Table.mk (put_comm hkey (Ne.symm hpairs.1)).symm
    show ((t.insert key value).insert pair.1 pair.2).insertAll pairs = _
    rw [hswap]
    exact ih (mem_keys_put.mpr (Or.inr hkey)) hpairs.2

/-- Setting a key among the pairs is setting it after them. -/
theorem insertAll_put (h : (pairs.map Prod.fst).Nodup) :
    t.insertAll (put key value pairs) = (t.insertAll pairs).insert key value := by
  induction pairs generalizing t with
  | nil => rfl
  | cons pair pairs ih =>
    obtain ⟨hnew, hrest⟩ := List.nodup_cons.mp h
    unfold put
    split
    · next hk =>
      subst hk
      show (t.insert pair.1 value).insertAll pairs =
        ((t.insert pair.1 pair.2).insertAll pairs).insert pair.1 value
      -- the value set last is the one that stays
      have hlast : (t.insert pair.1 pair.2).insert pair.1 value = t.insert pair.1 value :=
        congrArg Table.mk put_put
      have hset : pair.1 ∈ (t.insert pair.1 pair.2).entries.map Prod.fst :=
        mem_keys_put.mpr (Or.inl rfl)
      rw [← insertAll_insert hset hnew, hlast]
    · exact ih hrest

/-- A table is overridden by two lists of pairs one by one, or by the table that these make. -/
theorem insertAll_insertAll (h : (u.entries.map Prod.fst).Nodup) :
    t.insertAll (u.insertAll pairs).entries = (t.insertAll u.entries).insertAll pairs := by
  induction pairs generalizing u with
  | nil => rfl
  | cons pair pairs ih =>
    have hput : t.insertAll (u.insert pair.1 pair.2).entries =
        (t.insertAll u.entries).insert pair.1 pair.2 := insertAll_put h
    have hfirst : ((u.insert pair.1 pair.2).entries.map Prod.fst).Nodup := nodup_put h
    show t.insertAll ((u.insert pair.1 pair.2).insertAll pairs).entries =
      ((t.insertAll u.entries).insert pair.1 pair.2).insertAll pairs
    rw [ih hfirst, hput]

/-- The table of some pairs overrides another one as the pairs do. -/
theorem override_ofPairs (t : Table α) (pairs : List (String × α)) :
    t.override (ofPairs pairs) = t.insertAll pairs :=
  insertAll_insertAll (u := empty) List.nodup_nil

theorem nodup_insertAll (h : (t.entries.map Prod.fst).Nodup) :
    ((t.insertAll pairs).entries.map Prod.fst).Nodup := by
  induction pairs generalizing t with
  | nil => exact h
  | cons pair pairs ih => exact ih (nodup_put h)

/-- Pairs that are entered come before what a table has had. -/
theorem get?_insertAll_eq (t : Table α) (pairs : List (String × α)) (key : String) :
    (t.insertAll pairs).get? key = ((ofPairs pairs).get? key).or (t.get? key) := by
  have hnodup : ((ofPairs pairs).entries.map Prod.fst).Nodup :=
    nodup_insertAll (t := empty) List.nodup_nil
  rw [← override_ofPairs, get?_override hnodup]

theorem insertAll_of_get? (h : ∀ pair ∈ pairs, t.get? pair.1 = some pair.2) :
    t.insertAll pairs = t := by
  induction pairs with
  | nil => rfl
  | cons pair pairs ih =>
    obtain ⟨hfirst, hrest⟩ := List.forall_mem_cons.mp h
    have hkept : t.insert pair.1 pair.2 = t := congrArg Table.mk (put_of_find? hfirst)
    show (t.insert pair.1 pair.2).insertAll pairs = t
    rw [hkept, ih hrest]

/-- Entering the same pairs again changes nothing. -/
theorem insertAll_self (h : (pairs.map Prod.fst).Nodup) :
    (t.insertAll pairs).insertAll pairs = t.insertAll pairs := by
  refine insertAll_of_get? fun pair hpair => ?_
  have hfound : (Table.mk pairs).get? pair.1 = some pair.2 := get?_of_mem h hpair
  rw [show t.insertAll pairs = t.override ⟨pairs⟩ from rfl, get?_override h, hfound,
    Option.some_or]

/-! ## Other values -/

theorem map_insert (f : α → β) : (t.insert key value).map f = (t.map f).insert key (f value) := by
  obtain ⟨entries⟩ := t
  refine congrArg Table.mk ?_
  show (put key value entries).map _ = put key (f value) (entries.map _)
  induction entries with
  | nil => rfl
  | cons entry entries ih =>
    by_cases hk : entry.1 = key
    · rw [put, if_pos hk, List.map_cons, List.map_cons, put, if_pos hk]
    · rw [put, if_neg hk, List.map_cons, List.map_cons, put, if_neg hk, ih]

/-- Other values for the entries of both tables are other values for the one that they make. -/
theorem map_override (f : α → β) : (t.override u).map f = (t.map f).override (u.map f) := by
  obtain ⟨pairs⟩ := u
  show (t.insertAll pairs).map f = (t.map f).insertAll (pairs.map _)
  induction pairs generalizing t with
  | nil => rfl
  | cons pair pairs ih =>
    show ((t.insert pair.1 pair.2).insertAll pairs).map f = _
    rw [ih, map_insert]
    rfl

theorem keys_map (f : α → β) (t : Table α) :
    (t.map f).entries.map Prod.fst = t.entries.map Prod.fst := by
  show (t.entries.map _).map Prod.fst = _
  rw [List.map_map]
  rfl

/-! ## Keys in the order in which they come -/

theorem keys_of_names (names : List String) (f : String → α) :
    (names.map fun name => (name, f name)).map Prod.fst = names := by
  rw [List.map_map]
  exact List.map_id names

theorem put_of_not_mem (h : key ∉ entries.map Prod.fst) :
    put key value entries = entries ++ [(key, value)] := by
  induction entries with
  | nil => rfl
  | cons entry entries ih =>
    rw [List.map_cons, List.mem_cons, not_or] at h
    rw [put, if_neg (Ne.symm h.1), ih h.2]
    rfl

theorem keys_put_of_mem (h : key ∈ entries.map Prod.fst) :
    (put key value entries).map Prod.fst = entries.map Prod.fst := by
  induction entries with
  | nil => cases h
  | cons entry entries ih =>
    unfold put
    split
    · next hk => rfl
    · next hk =>
      rw [List.map_cons, List.map_cons, ih ((List.mem_cons.mp h).resolve_left (Ne.symm hk))]

/-- A key that is new comes last. -/
theorem keys_put (h : (entries.map Prod.fst).Nodup) :
    (put key value entries).map Prod.fst = (entries.map Prod.fst ++ [key]).eraseDups := by
  by_cases hkey : key ∈ entries.map Prod.fst
  · have hnone : [key].removeAll (entries.map Prod.fst) = [] := by
      simp [List.removeAll, hkey]
    rw [keys_put_of_mem hkey, List.eraseDups_append, hnone, eraseDups_of_nodup h,
      List.eraseDups_nil, List.append_nil]
  · have hnodup : (entries.map Prod.fst ++ [key]).Nodup :=
      List.nodup_append.mpr ⟨h, List.pairwise_singleton _ key, fun k hk other hother heq =>
        hkey (List.mem_singleton.mp hother ▸ heq ▸ hk)⟩
    rw [put_of_not_mem hkey, List.map_append, eraseDups_of_nodup hnodup]
    rfl

/-- The keys stand in the order in which they first came. -/
theorem keys_insertAll (h : (t.entries.map Prod.fst).Nodup) :
    (t.insertAll pairs).entries.map Prod.fst =
      (t.entries.map Prod.fst ++ pairs.map Prod.fst).eraseDups := by
  induction pairs generalizing t with
  | nil => rw [List.map_nil, List.append_nil, eraseDups_of_nodup h]; rfl
  | cons pair pairs ih =>
    have hput : (t.insert pair.1 pair.2).entries.map Prod.fst =
        (t.entries.map Prod.fst ++ [pair.1]).eraseDups := keys_put h
    have hnodup : ((t.insert pair.1 pair.2).entries.map Prod.fst).Nodup := nodup_put h
    show ((t.insert pair.1 pair.2).insertAll pairs).entries.map Prod.fst = _
    rw [ih hnodup, hput, eraseDups_eraseDups_append, List.append_assoc]
    rfl

theorem keys_ofPairs (pairs : List (String × α)) :
    (ofPairs pairs).entries.map Prod.fst = (pairs.map Prod.fst).eraseDups :=
  keys_insertAll (t := empty) List.nodup_nil

/-- Pairs with new keys stand behind those that are there. -/
theorem insertAll_of_nodup (h : ((t.entries ++ pairs).map Prod.fst).Nodup) :
    t.insertAll pairs = ⟨t.entries ++ pairs⟩ := by
  induction pairs generalizing t with
  | nil => rw [List.append_nil]; rfl
  | cons pair pairs ih =>
    have hnew : pair.1 ∉ t.entries.map Prod.fst := by
      intro hmem
      rw [List.map_append, List.nodup_append] at h
      exact h.2.2 _ hmem _ List.mem_cons_self rfl
    have hput : t.insert pair.1 pair.2 = ⟨t.entries ++ [pair]⟩ :=
      congrArg Table.mk (put_of_not_mem hnew)
    show (t.insert pair.1 pair.2).insertAll pairs = _
    rw [hput, ih (by rw [List.append_assoc]; exact h), List.append_assoc]
    rfl

theorem ofPairs_of_nodup (h : (pairs.map Prod.fst).Nodup) : ofPairs pairs = ⟨pairs⟩ :=
  insertAll_of_nodup (t := empty) h

theorem find?_append (key : String) (entries more : List (String × α)) :
    find? key (entries ++ more) = (find? key entries).or (find? key more) := by
  induction entries with
  | nil => rfl
  | cons entry entries ih =>
    rw [List.cons_append, find?, find?, ih]
    split <;> rfl

theorem get?_insertAll_last (t : Table α) (pairs : List (String × α)) (key : String) :
    (t.insertAll pairs).get? key = (find? key pairs.reverse).or (t.get? key) := by
  induction pairs generalizing t with
  | nil => rfl
  | cons pair pairs ih =>
    show ((t.insert pair.1 pair.2).insertAll pairs).get? key = _
    rw [ih, List.reverse_cons, find?_append, Option.or_assoc]
    congr 1
    by_cases hk : key = pair.1
    · subst hk
      rw [get?_insert_self, find?, if_pos rfl, Option.some_or]
    · rw [get?_insert_of_ne t hk, find?, if_neg (Ne.symm hk), find?, Option.none_or]

/-- Of several values for a key the last one counts. -/
theorem get?_ofPairs (pairs : List (String × α)) (key : String) :
    (ofPairs pairs).get? key = find? key pairs.reverse :=
  (get?_insertAll_last empty pairs key).trans (Option.or_none ..)

end Contraction.Table
