/-!
# Tables

A table maps keys to values and keeps its keys in the order in which they first came. A key that
comes again takes the new value and stays at its place.
-/

namespace Contraction

/-- Keys with their values, in the order of the keys' first coming. -/
structure Table (α : Type) where
  entries : List (String × α)
deriving DecidableEq, Inhabited

namespace Table

variable {α β : Type}

def empty : Table α := ⟨[]⟩

/-- The entries with a key set to a value: in its place, or at the end if it is new. -/
def put (key : String) (value : α) : List (String × α) → List (String × α)
  | [] => [(key, value)]
  | (k, v) :: rest => if k = key then (k, value) :: rest else (k, v) :: put key value rest

/-- The table with a key set to a value. -/
def insert (t : Table α) (key : String) (value : α) : Table α :=
  ⟨put key value t.entries⟩

/-- The table with pairs entered one after the other. -/
def insertAll (t : Table α) (pairs : List (String × α)) : Table α :=
  pairs.foldl (fun t pair => t.insert pair.1 pair.2) t

/-- The table of some pairs, of which the last with a key counts. -/
def ofPairs (pairs : List (String × α)) : Table α :=
  empty.insertAll pairs

/-- The value that stands first for a key among some entries. -/
def find? (key : String) : List (String × α) → Option α
  | [] => none
  | (k, v) :: rest => if k = key then some v else find? key rest

/-- The value of a key. -/
def get? (t : Table α) (key : String) : Option α :=
  find? key t.entries

/-- One table overridden by another. -/
def override (t u : Table α) : Table α :=
  t.insertAll u.entries

def map (f : α → β) (t : Table α) : Table β :=
  ⟨t.entries.map fun (key, value) => (key, f value)⟩

theorem find?_put_self (key : String) (value : α) (entries : List (String × α)) :
    find? key (put key value entries) = some value := by
  induction entries with
  | nil => simp [put, find?]
  | cons entry rest ih => by_cases h : entry.1 = key <;> simp [put, find?, h, ih]

theorem find?_put_of_ne {key other : String} (h : other ≠ key) (value : α)
    (entries : List (String × α)) : find? other (put key value entries) = find? other entries := by
  induction entries with
  | nil => simp [put, find?, Ne.symm h]
  | cons entry rest ih =>
    by_cases hk : entry.1 = key
    · simp [put, find?, hk, Ne.symm h]
    · simp [put, find?, hk, ih]

@[simp] theorem get?_insert_self (t : Table α) (key : String) (value : α) :
    (t.insert key value).get? key = some value :=
  find?_put_self key value t.entries

@[simp] theorem get?_map (f : α → β) (t : Table α) (key : String) :
    (t.map f).get? key = (t.get? key).map f := by
  obtain ⟨entries⟩ := t
  simp only [map, get?]
  induction entries with
  | nil => rfl
  | cons entry rest ih => by_cases h : entry.1 = key <;> simp [find?, h, ih]

theorem get?_insert_of_ne (t : Table α) {key other : String} (h : other ≠ key) (value : α) :
    (t.insert key value).get? other = t.get? other :=
  find?_put_of_ne h value t.entries

end Table

end Contraction
