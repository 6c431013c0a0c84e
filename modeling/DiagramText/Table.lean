/-!
# Tables

Values under keys, in the order in which the keys were first given. Giving a key another value
replaces the one it had and leaves the order alone.
-/

namespace DiagramText

/-- Values under keys. -/
abbrev Table (α : Type) := List (String × α)

namespace Table

/-- The table in which `key` has this value. -/
def insert (table : Table α) (key : String) (value : α) : Table α :=
  match table with
  | [] => [(key, value)]
  | (k, v) :: rest => if k = key then (key, value) :: rest else (k, v) :: insert rest key value

/-- The value of a key. -/
def get? (table : Table α) (key : String) : Option α :=
  (table.find? (·.1 == key)).map (·.2)

/-- A key has the value that it was given last. -/
theorem get?_insert_self (table : Table α) (key : String) (value : α) :
    (table.insert key value).get? key = some value := by
  induction table with
  | nil => simp [insert, get?]
  | cons e rest ih =>
    obtain ⟨k, v⟩ := e
    by_cases h : k = key
    · simp [insert, get?, h]
    · simpa [insert, get?, h] using ih

/-- The other keys keep their values. -/
theorem get?_insert_of_ne (table : Table α) {key other : String} (value : α) (h : other ≠ key) :
    (table.insert key value).get? other = table.get? other := by
  induction table with
  | nil => simp [insert, get?, Ne.symm h]
  | cons e rest ih =>
    obtain ⟨k, v⟩ := e
    by_cases hk : k = key
    · have : k ≠ other := fun e => h (e ▸ hk)
      simp [insert, get?, hk, Ne.symm h]
    · by_cases ho : k = other
      · subst ho
        simp [insert, get?, h]
      · simp only [get?] at ih
        simp [insert, get?, hk, ho, ih]

end Table

end DiagramText
