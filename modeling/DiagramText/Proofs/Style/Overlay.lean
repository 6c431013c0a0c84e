import DiagramText.Distinct
import DiagramText.Style

/-!
# Styles laid over each other

A table in which values are put one after the other keeps its keys and adds the others in the order in which they
first come, and each key has the value that it was given last (`keys_insertAll`, `get?_insertAll`). So a style that
is laid over another one brings the last value of each of its properties (`get?_merge`), while looking a property up
finds the first one. The two agree for a style that gives no property two values, and then laying it over another is
associative and changes nothing the second time. `overlay_iff` says for which styles each of these laws holds.
-/

namespace DiagramText

/-! ## Tables -/

namespace Table

/-- The keys of a table. -/
def keys (table : Table α) : List String := table.map (·.1)

/-- The value that a key is given last. -/
def last? (table : Table α) (key : String) : Option α := get? table.reverse key

/-- The table in which the values are put one after the other. -/
def insertAll (table given : Table α) : Table α :=
  given.foldl (fun table (key, value) => table.insert key value) table

theorem get?_append (table more : Table α) (key : String) :
    get? (table ++ more) key = (get? table key).or (get? more key) := by
  rw [get?, List.find?_append, Option.map_or]
  rfl

theorem last?_append (table more : Table α) (key : String) :
    last? (table ++ more) key = (last? more key).or (last? table key) := by
  rw [last?, List.reverse_append, get?_append]
  rfl

theorem last?_cons (first : String) (value : α) (table : Table α) (key : String) :
    last? ((first, value) :: table) key = (last? table key).or (if first = key then some value else none) := by
  rw [← List.singleton_append, last?_append]
  congr 1
  by_cases same : first = key <;> simp [last?, get?, same]

theorem get?_eq_none {table : Table α} {key : String} : get? table key = none ↔ key ∉ keys table := by
  simp only [get?, keys, Option.map_eq_none_iff, List.find?_eq_none, beq_iff_eq, List.mem_map, not_exists, not_and]

theorem last?_eq_none {table : Table α} {key : String} : last? table key = none ↔ key ∉ keys table := by
  rw [last?, get?_eq_none, keys, List.map_reverse, List.mem_reverse]
  rfl

/-- A key that is given one value only has that value last. -/
theorem last?_of_mem {table : Table α} (distinct : (keys table).Nodup) {key : String} {value : α}
    (h : (key, value) ∈ table) : last? table key = some value := by
  induction table with
  | nil => cases h
  | cons entry table ih =>
    obtain ⟨first, other⟩ := entry
    obtain ⟨fresh, distinct⟩ := List.nodup_cons.1 distinct
    rw [last?_cons]
    obtain same | h := List.mem_cons.1 h
    · obtain ⟨rfl, rfl⟩ := Prod.mk.inj same
      rw [last?_eq_none.2 fresh, if_pos rfl, Option.none_or]
    · rw [ih distinct h, Option.some_or]

theorem get?_insert (table : Table α) (key other : String) (value : α) :
    (table.insert key value).get? other = if key = other then some value else table.get? other := by
  split
  · rename_i same
    rw [← same, get?_insert_self]
  · rename_i different
    exact get?_insert_of_ne table value (Ne.symm different)

theorem keys_insert (table : Table α) (key : String) (value : α) :
    keys (table.insert key value) = Distinct.add (keys table) key := by
  induction table with
  | nil => rfl
  | cons entry table ih =>
    obtain ⟨first, old⟩ := entry
    by_cases same : first = key
    · simp [insert, keys, Distinct.add, same]
    · rw [insert, if_neg same, keys, List.map_cons, ← keys, ih]
      by_cases known : key ∈ keys table
      · simp_all [keys, Distinct.add]
      · simp_all [keys, Distinct.add, Ne.symm same]

/-- A key that is given twice keeps its last value, since the first one is replaced. -/
theorem last?_insert (table : Table α) (key other : String) (value : α) :
    last? (table.insert key value) other =
      if key = other ∧ (keys table).count other ≤ 1 then some value else last? table other := by
  induction table with
  | nil => by_cases same : key = other <;> simp [insert, keys, last?, get?, same]
  | cons entry table ih =>
    obtain ⟨first, old⟩ := entry
    rw [last?_cons, keys, List.map_cons, ← keys, List.count_cons]
    by_cases found : first = key
    · rw [insert, if_pos found, last?_cons]
      by_cases same : key = other
      · cases hlast : last? table other with
        | none =>
          have once : (keys table).count other = 0 := List.count_eq_zero.2 (last?_eq_none.1 hlast)
          simp [found, same, once]
        | some later =>
          have again : 0 < (keys table).count other := by
            refine List.count_pos_iff.2 (Decidable.not_not.1 fun absent => ?_)
            rw [last?_eq_none.2 absent] at hlast
            cases hlast
          have twice : ¬ (keys table).count other + 1 ≤ 1 := by omega
          simp [found, same, twice]
      · simp [found, same]
    · rw [insert, if_neg found, last?_cons, ih]
      by_cases same : key = other
      · subst same
        simp only [found, beq_eq_false_iff_ne.2 found, if_false, Option.or_none, Nat.add_zero, Bool.false_eq_true]
      · simp [same]

theorem insertAll_append (table given more : Table α) :
    insertAll table (given ++ more) = insertAll (insertAll table given) more :=
  List.foldl_append

/-- Keys stand in the order in which they are first given. -/
theorem keys_insertAll (table given : Table α) :
    keys (insertAll table given) = Distinct.addAll (keys table) (keys given) := by
  induction given generalizing table with
  | nil => rfl
  | cons entry given ih => exact (ih (table.insert entry.1 entry.2)).trans (by rw [keys_insert]; rfl)

theorem get?_insertAll (table given : Table α) (key : String) :
    get? (insertAll table given) key = (last? given key).or (get? table key) := by
  induction given generalizing table with
  | nil => rfl
  | cons entry given ih =>
    obtain ⟨first, value⟩ := entry
    rw [last?_cons, Option.or_assoc, insertAll, List.foldl_cons, ← insertAll, ih, get?_insert]
    split <;> rfl

theorem last?_insertAll (table given : Table α) (key : String) :
    last? (insertAll table given) key =
      if 1 < (keys table).count key then last? table key else (last? given key).or (last? table key) := by
  induction given generalizing table with
  | nil => split <;> rfl
  | cons entry given ih =>
    obtain ⟨first, value⟩ := entry
    rw [last?_cons, Option.or_assoc, insertAll, List.foldl_cons, ← insertAll, ih, keys_insert, last?_insert]
    simp only [Distinct.one_lt_count_add]
    by_cases again : 1 < (keys table).count key
    · simp [again, Nat.not_le.2 again]
    · by_cases same : first = key <;> simp [again, same, Nat.not_lt.1 again]

end Table

/-! ## Styles -/

namespace Style

/-- The value that a property is given last. -/
def last? (s : Style) (property : String) : Option String := Table.last? s.properties property

/-- Whether a property is given more than once. -/
def Repeats (s : Style) (property : String) : Prop := 1 < (Table.keys s.properties).count property

/-- A style laid over another one brings the last value of each of its properties. -/
theorem get?_merge (s top : Style) (property : String) :
    (s.merge top).get? property = (top.last? property).or (s.get? property) :=
  Table.get?_insertAll s.properties top.properties property

/-- A property that is given more than once keeps its last value below whatever is laid over it. -/
theorem last?_merge_of_repeats {s : Style} {property : String} (h : s.Repeats property) (top : Style) :
    (s.merge top).last? property = s.last? property :=
  (Table.last?_insertAll s.properties top.properties property).trans (if_pos h)

theorem last?_merge_of_once {s : Style} {property : String} (h : ¬ s.Repeats property) (top : Style) :
    (s.merge top).last? property = (top.last? property).or (s.last? property) :=
  (Table.last?_insertAll s.properties top.properties property).trans (if_neg h)

/-- A style has a first value of a property where it has a last one. -/
theorem get?_eq_none (s : Style) (property : String) : s.get? property = none ↔ s.last? property = none :=
  Table.get?_eq_none.trans Table.last?_eq_none.symm

/-- Only where the last value of a property is its first one as well, it goes over what lies below. -/
theorem get?_merge_eq_iff (s top : Style) (property : String) :
    (s.merge top).get? property = (top.get? property).or (s.get? property) ↔
      top.get? property = top.last? property := by
  rw [get?_merge]
  cases hlast : top.last? property with
  | none => simp [(top.get?_eq_none property).2 hlast]
  | some last =>
    cases hfirst : top.get? property with
    | none =>
      rw [(top.get?_eq_none property).1 hfirst] at hlast
      cases hlast
    | some first => simp only [Option.some_or, eq_comm]

theorem merge_assoc_iff (a b c : Style) (property : String) :
    ((a.merge b).merge c).get? property = (a.merge (b.merge c)).get? property ↔
      (b.Repeats property → ∀ value, c.last? property = some value → b.last? property = some value) := by
  rw [get?_merge, get?_merge, get?_merge]
  by_cases again : b.Repeats property
  · rw [last?_merge_of_repeats again]
    obtain ⟨last, hlast⟩ : ∃ last, b.last? property = some last := by
      refine Option.ne_none_iff_exists'.1 fun missing => ?_
      have absent := List.count_eq_zero.2 (Table.last?_eq_none.1 missing)
      rw [Repeats, absent] at again
      cases again
    cases c.last? property with
    | none => simp
    | some value => simp [hlast, again, eq_comm]
  · rw [last?_merge_of_once again, Option.or_assoc]
    simp [again]

/-- Three laws of laying styles over each other: the values of the upper style go over those of the lower one, it does
not matter which two of three are laid over each other first, and a style laid over itself changes nothing. Each
holds of a property where, and only where, no two different values of it stand in one style in the way: the law of
the upper style and that of the style itself where the first value is the last one, and the law of three styles
unless the one in the middle gives the property more than once and the upper one gives it yet another value. -/
theorem overlay_iff (a b c : Style) (property : String) :
    ((a.merge b).get? property = (b.get? property).or (a.get? property) ↔ b.get? property = b.last? property) ∧
      (((a.merge b).merge c).get? property = (a.merge (b.merge c)).get? property ↔
        (b.Repeats property → ∀ value, c.last? property = some value → b.last? property = some value)) ∧
      ((a.merge a).get? property = a.get? property ↔ a.get? property = a.last? property) := by
  refine ⟨get?_merge_eq_iff a b property, merge_assoc_iff a b c property, ?_⟩
  have self := get?_merge_eq_iff a a property
  rwa [Option.or_self] at self

/-- A property of a text may have two values. A style of such a text counts as red by itself and as blue when it is
laid over another style or over itself, and what lies over it shows or does not, as it is laid over the style alone
or over it together with what is below. -/
theorem exists_law_broken :
    ∃ a b c, ofText? "stroke:black" = some a ∧ ofText? "fill:red,fill:blue" = some b ∧ ofText? "fill:green" = some c ∧
      b.get? "fill" = some "red" ∧ (a.merge b).get? "fill" = some "blue" ∧ (b.merge b).get? "fill" = some "blue" ∧
      ((a.merge b).merge c).get? "fill" = some "green" ∧ (a.merge (b.merge c)).get? "fill" = some "blue" := by
  refine ⟨⟨[("stroke", "black")]⟩, ⟨[("fill", "red"), ("fill", "blue")]⟩, ⟨[("fill", "green")]⟩, ?_⟩
  decide

end Style

end DiagramText
