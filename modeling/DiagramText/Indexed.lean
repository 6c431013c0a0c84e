import DiagramText.Keyed

/-!
# Entities with an index

Entities with ids stand in a list with an index beside it, a map from ids to places (`Indexed`). An entity is found
through the index, and merged or changed where the index says; a new one is put at the end of the list and entered into
the index. The index is coherent if it has exactly the ids that are there, each with its place. Every operation keeps
it so, and a list with a coherent index is a roster (`Roster`). What an operation makes of the entities of a roster is
what it would make of them without an index (`Roster.entries_add` and the lemmas beside it).
-/

namespace DiagramText

/-- Entities in their order, and the places of ids. -/
structure Indexed (α : Type) where
  entries : List α := []
  places : String → Option Nat := fun _ => none

namespace Indexed

variable {α : Type} [Keyed α]

/-- Whether the index has the id. -/
def has (s : Indexed α) (key : String) : Bool := (s.places key).isSome

/-- The entity at the place that the index has for an id. -/
def find? (s : Indexed α) (key : String) : Option α := (s.places key).bind (s.entries[·]?)

/-- The entities with one more at the end, entered into the index. -/
def push (s : Indexed α) (item : α) : Indexed α where
  entries := s.entries ++ [item]
  places key := if Keyed.id item = key then some s.entries.length else s.places key

/-- The entities with the one at a place changed. The index is left as it is. -/
def modify (s : Indexed α) (i : Nat) (f : α → α) : Indexed α := { s with entries := s.entries.modify i f }

/-- The entities with one more, which `join` merges into the one where its id has its place, if it has one. -/
def add (s : Indexed α) (join : α → α → α) (item : α) : Indexed α :=
  match s.places (Keyed.id item) with
  | some i => s.modify i (join · item)
  | none => s.push item

/-- The entities with this one, unless its id has a place. -/
def ensure (s : Indexed α) (item : α) : Indexed α := if s.has (Keyed.id item) then s else s.push item

/-- The entities with the one of this id changed, if the id has a place. -/
def change (s : Indexed α) (key : String) (f : α → α) : Indexed α :=
  match s.places key with
  | some i => s.modify i f
  | none => s

/-- The index has exactly the ids that are there, each with the place of the entity. -/
def Coherent (s : Indexed α) : Prop := ∀ key i, s.places key = some i ↔ s.entries[i]?.map Keyed.id = some key

theorem coherent_empty : ({} : Indexed α).Coherent := by
  intro key i
  rw [List.getElem?_nil]
  exact ⟨nofun, nofun⟩

namespace Coherent

variable {s : Indexed α} {item : α} {key : String} (h : s.Coherent)
include h

theorem lt_length {i : Nat} (e : s.places key = some i) : i < s.entries.length := by
  obtain ⟨item, found, -⟩ := Option.map_eq_some_iff.1 ((h key i).1 e)
  exact (List.getElem?_eq_some_iff.1 found).1

/-- A change that keeps ids leaves every id at its place. -/
theorem modify {i : Nat} {f : α → α} (keeps : Keyed.KeepsId f) : (s.modify i f).Coherent := by
  intro key j
  have same : (s.entries.modify i f)[j]?.map Keyed.id = s.entries[j]?.map Keyed.id := by
    rw [List.getElem?_modify]
    cases s.entries[j]? with
    | none => rfl
    | some old =>
      refine congrArg some ?_
      show Keyed.id (if i = j then f old else old) = Keyed.id old
      split
      · exact keeps.id_eq old
      · rfl
  exact (h key j).trans (by rw [← same]; rfl)

/-- A new id is entered with the place behind all others. -/
theorem push (new : s.places (Keyed.id item) = none) : (s.push item).Coherent := by
  intro key i
  have absent : s.entries[i]?.map Keyed.id ≠ some (Keyed.id item) := fun same => by
    rw [(h _ i).2 same] at new
    cases new
  show (if Keyed.id item = key then _ else _) = _ ↔ (s.entries ++ [item])[i]?.map Keyed.id = some key
  obtain inside | rfl | behind := Nat.lt_trichotomy i s.entries.length
  · rw [List.getElem?_append_left inside]
    split
    · rename_i same
      subst same
      exact ⟨fun e => absurd (Option.some.inj e) (Nat.ne_of_gt inside), fun e => absurd e absent⟩
    · exact h key i
  · rw [List.getElem?_concat_length, Option.map_some, Option.some_inj]
    split
    · rename_i same
      exact ⟨fun _ => same, fun _ => rfl⟩
    · rename_i apart
      exact ⟨fun e => absurd (h.lt_length e) (Nat.lt_irrefl _), fun e => absurd e apart⟩
  · rw [List.getElem?_eq_none (by rw [List.length_append, List.length_singleton]; omega)]
    refine ⟨fun e => ?_, nofun⟩
    split at e
    · exact absurd (Option.some.inj e) (Nat.ne_of_lt behind)
    · exact absurd (h.lt_length e) (Nat.lt_asymm behind)

theorem add {join : α → α → α} (keeps : Keyed.KeepsId (join · item)) : (s.add join item).Coherent := by
  rw [Indexed.add]
  split
  · exact h.modify keeps
  · rename_i new
    exact h.push new

theorem ensure (item : α) : (s.ensure item).Coherent := by
  rw [Indexed.ensure]
  split
  · exact h
  · rename_i new
    exact h.push (by simpa [has] using new)

theorem change {f : α → α} (keeps : Keyed.KeepsId f) : (s.change key f).Coherent := by
  rw [Indexed.change]
  split
  · exact h.modify keeps
  · exact h

/-! ### What is found through the index -/

/-- The place of an id is where the first entity with the id stands. -/
theorem places_eq (key : String) : s.places key = Keyed.index? s.entries key := by
  cases e : Keyed.index? s.entries key with
  | none =>
    rw [Keyed.index?, List.findIdx?_eq_none_iff] at e
    refine Option.eq_none_iff_forall_ne_some.2 fun i hi => ?_
    obtain ⟨item, found, same⟩ := Option.map_eq_some_iff.1 ((h key i).1 hi)
    simpa [same] using e item (List.mem_of_getElem? found)
  | some i =>
    rw [Keyed.index?, List.findIdx?_eq_some_iff_getElem] at e
    obtain ⟨inside, same, -⟩ := e
    refine (h key i).2 ?_
    rw [List.getElem?_eq_getElem inside, Option.map_some, eq_of_beq same]

theorem has_eq (key : String) : s.has key = Keyed.has s.entries key := by
  rw [has, h.places_eq, Keyed.index?, List.findIdx?_isSome]
  rfl

theorem find?_eq (key : String) : s.find? key = Keyed.find? s.entries key := by
  rw [find?, h.places_eq, Keyed.index?, Keyed.find?, List.find?_eq_bind_findIdx?_getElem?]

theorem entries_change {f : α → α} : (s.change key f).entries = Keyed.update s.entries key f := by
  rw [Indexed.change, h.places_eq, Keyed.update_eq]
  cases Keyed.index? s.entries key <;> rfl

theorem entries_add {join : α → α → α} : (s.add join item).entries = Keyed.add join s.entries item := by
  rw [Indexed.add, Keyed.add, ← h.has_eq, has, Keyed.update_eq, ← h.places_eq]
  cases s.places (Keyed.id item) <;> rfl

theorem entries_ensure : (s.ensure item).entries = Keyed.ensure s.entries item := by
  rw [Indexed.ensure, Keyed.ensure_eq, h.has_eq]
  split <;> rfl

end Coherent

end Indexed

/-- Entities in their order with a coherent index. -/
structure Roster (α : Type) [Keyed α] where
  index : Indexed α
  coherent : index.Coherent

namespace Roster

variable {α : Type} [Keyed α]

instance : EmptyCollection (Roster α) := ⟨{}, Indexed.coherent_empty⟩

instance : Inhabited (Roster α) := ⟨∅⟩

/-- The entities. -/
def entries (r : Roster α) : List α := r.index.entries

/-- Whether there is an entity with the id. -/
def has (r : Roster α) (key : String) : Bool := r.index.has key

/-- The entity with an id. -/
def find? (r : Roster α) (key : String) : Option α := r.index.find? key

/-- The place of the entity with an id. -/
def place? (r : Roster α) (key : String) : Option Nat := r.index.places key

/-- The roster with one more entity, which `join` merges into the one of its id if there is one. -/
def add (r : Roster α) (join : α → α → α) (item : α)
    (keeps : Keyed.KeepsId (join · item)) : Roster α :=
  ⟨r.index.add join item, r.coherent.add keeps⟩

/-- The roster with this entity, unless its id is taken. -/
def ensure (r : Roster α) (item : α) : Roster α := ⟨r.index.ensure item, r.coherent.ensure item⟩

/-- The roster with the entity of an id changed, if there is one. -/
def change (r : Roster α) (key : String) (f : α → α)
    (keeps : Keyed.KeepsId f) : Roster α :=
  ⟨r.index.change key f, r.coherent.change keeps⟩

variable (r : Roster α) (key : String)

theorem has_eq : r.has key = Keyed.has r.entries key := r.coherent.has_eq key

theorem find?_eq : r.find? key = Keyed.find? r.entries key := r.coherent.find?_eq key

theorem place?_eq : r.place? key = Keyed.index? r.entries key := r.coherent.places_eq key

@[simp] theorem entries_empty : (∅ : Roster α).entries = [] := rfl

@[simp] theorem entries_add (join : α → α → α) (item : α) (keeps : Keyed.KeepsId (join · item)) :
    (r.add join item keeps).entries = Keyed.add join r.entries item :=
  r.coherent.entries_add

@[simp] theorem entries_ensure (item : α) : (r.ensure item).entries = Keyed.ensure r.entries item :=
  r.coherent.entries_ensure

@[simp] theorem entries_change (f : α → α) (keeps : Keyed.KeepsId f) :
    (r.change key f keeps).entries = Keyed.update r.entries key f :=
  r.coherent.entries_change

/-- The entities leave no choice for the index. -/
theorem ext {r r' : Roster α} (h : r.entries = r'.entries) : r = r' := by
  obtain ⟨⟨entries, places⟩, coherent⟩ := r
  obtain ⟨⟨entries', places'⟩, coherent'⟩ := r'
  obtain rfl : entries = entries' := h
  have same : places = places' := funext fun key => (coherent.places_eq key).trans (coherent'.places_eq key).symm
  subst same
  rfl

instance [DecidableEq α] : DecidableEq (Roster α) := fun r r' =>
  decidable_of_iff (r.entries = r'.entries) ⟨ext, congrArg entries⟩

end Roster

end DiagramText
