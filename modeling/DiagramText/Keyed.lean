import DiagramText.Distinct

/-!
# Lists of entities with ids

An entity is found by its id, and one that is given again is merged into the one that is there: it
keeps its place, and the others are left alone. So ids stay distinct and entities stand in the order
in which they were first given.
-/

namespace DiagramText

/-- The entities that have an id. -/
class Keyed (α : Type) where
  /-- The id of an entity. -/
  id : α → String

namespace Keyed

/-- A change of entities that keeps their ids. -/
structure KeepsId [Keyed α] (change : α → α) : Prop where
  id_eq : ∀ a, id (change a) = id a

variable [Keyed α]

/-- The ids of the entities. -/
def ids (items : List α) : List String := items.map id

/-- The first entity with an id. -/
def find? (items : List α) (key : String) : Option α := items.find? (id · == key)

/-- The place of the first entity with an id. -/
def index? (items : List α) (key : String) : Option Nat := items.findIdx? (id · == key)

/-- Whether there is an entity with the id. -/
def has (items : List α) (key : String) : Bool := items.any (id · == key)

/-- The entities with the first one of this id changed. -/
def update (items : List α) (key : String) (change : α → α) : List α :=
  match items with
  | [] => []
  | item :: rest => if id item = key then change item :: rest else item :: update rest key change

/-- The entities with one more, which `join` merges into the one of the same id if there is one. -/
def add (join : α → α → α) (items : List α) (item : α) : List α :=
  if has items (id item) then update items (id item) (join · item) else items ++ [item]

/-- The entities with this one, unless its id is taken. -/
def ensure (items : List α) (item : α) : List α := add (fun old _ => old) items item

theorem has_iff {items : List α} {key : String} : has items key = true ↔ key ∈ ids items := by
  simp [has, ids]

theorem ids_append (items more : List α) : ids (items ++ more) = ids items ++ ids more :=
  List.map_append

theorem ids_update_of {change : α → α} {key : String} (h : ∀ a, id a = key → id (change a) = key)
    (items : List α) : ids (update items key change) = ids items := by
  induction items with
  | nil => rfl
  | cons a rest ih =>
    simp only [update]
    split
    · rename_i found
      simp [ids, h a found, found]
    · simpa [ids] using ih

/-- A change that keeps ids changes no id of the list. -/
theorem ids_update {change : α → α} (h : ∀ a, id (change a) = id a) (items : List α)
    (key : String) : ids (update items key change) = ids items :=
  ids_update_of (fun a same => (h a).trans same) items

/-- An entity is added at the end under a new id, or merged. -/
theorem ids_add {join : α → α → α} {item : α} (h : ∀ a, id a = id item → id (join a item) = id item)
    (items : List α) : ids (add join items item) = Distinct.add (ids items) (id item) := by
  by_cases known : id item ∈ ids items
  · rw [add, if_pos (has_iff.2 known), ids_update_of h, Distinct.add, if_pos (List.contains_iff_mem.2 known)]
  · rw [add, if_neg (mt has_iff.1 known), ids_append, Distinct.add, if_neg (mt List.contains_iff_mem.1 known)]
    rfl

theorem ids_ensure (items : List α) (item : α) : ids (ensure items item) = Distinct.add (ids items) (id item) :=
  ids_add (fun _ same => same) items

/-- The first entity of an id is changed where it stands. -/
theorem update_eq (items : List α) (key : String) (change : α → α) :
    update items key change = (index? items key).elim items (items.modify · change) := by
  induction items with
  | nil => rfl
  | cons item rest ih =>
    rw [update, index?, List.findIdx?_cons]
    split
    · rename_i found
      simp [found]
    · rename_i apart
      rw [ih, index?]
      cases rest.findIdx? (id · == key) <;> simp [apart]

theorem update_self (items : List α) (key : String) : update items key (fun a => a) = items := by
  induction items with
  | nil => rfl
  | cons a rest ih =>
    rw [update]
    split
    · rfl
    · rw [ih]

/-- An entity whose id is taken is not added. -/
theorem ensure_eq (items : List α) (item : α) :
    ensure items item = if has items (id item) then items else items ++ [item] := by
  rw [ensure, add, update_self]

end Keyed

end DiagramText
