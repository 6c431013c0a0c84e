import DiagramText.Indexed
import Mathlib.Data.List.Nodup

/-!
# Steps of entities with an index

A step adds an entity or changes one (`Step`), and no step changes an id. Entities with a coherent index have distinct
ids (`Indexed.Coherent.nodup`). The index stays coherent (`Indexed.Coherent.apply`), so it is after steps whatever they
are (`Indexed.Coherent.foldl_apply`), and the entities are those of the list without an index
(`Indexed.Coherent.entries_apply`). What is true of a list after a step is told by `Step.map_revise_isPrefix`: every
entity keeps its place, only the one of the id of the step may be another, and a new one stands at the end.
-/

namespace DiagramText

/-! ## Steps -/

/-- A step of a list of entities: one is added, or merged into the one of its id; or the one of an id is changed,
if it is there. -/
inductive Step (α : Type) [Keyed α] where
  | add (join : α → α → α) (item : α) (keeps : Keyed.KeepsId (join · item))
  | change (key : String) (f : α → α) (keeps : Keyed.KeepsId f)

namespace Step

variable {α : Type} [Keyed α] {items : List α}

/-- The step that adds an entity unless its id is taken. -/
def ensure (item : α) : Step α := .add (fun old _ => old) item ⟨fun _ => rfl⟩

/-- The id that the step is about. -/
def key : Step α → String
  | add _ item _ => Keyed.id item
  | change key _ _ => key

/-- The id that is there after the step, if that is what the step is for. -/
def mention? : Step α → Option String
  | add _ item _ => some (Keyed.id item)
  | change _ _ _ => none

/-- What becomes of an entity. -/
def revise (step : Step α) (old : α) : α :=
  match step with
  | add join item _ => if Keyed.id old = Keyed.id item then join old item else old
  | change key f _ => if Keyed.id old = key then f old else old

/-- The entities after the step. -/
def on (items : List α) : Step α → List α
  | add join item _ => Keyed.add join items item
  | change key f _ => Keyed.update items key f

theorem id_revise (step : Step α) (old : α) : Keyed.id (step.revise old) = Keyed.id old := by
  cases step with
  | add join item keeps =>
    rw [revise]
    split
    · exact keeps.id_eq old
    · rfl
  | change key f keeps =>
    rw [revise]
    split
    · exact keeps.id_eq old
    · rfl

theorem revise_of_ne {step : Step α} {old : α} (h : Keyed.id old ≠ step.key) : step.revise old = old := by
  cases step with
  | add => exact if_neg h
  | change => exact if_neg h

/-- The ids after a step are those before it, and behind them the one that it mentions if that is new. -/
theorem ids_on (items : List α) (step : Step α) :
    Keyed.ids (on items step) = Distinct.addAll (Keyed.ids items) step.mention?.toList := by
  cases step with
  | add join item keeps => exact Keyed.ids_add (fun old same => (keeps.id_eq old).trans same) items
  | change key f keeps => exact Keyed.ids_update keeps.id_eq items key

end Step

namespace Keyed

variable {α : Type} [Keyed α] {items : List α}

/-- All entities of an id are changed if that id does not occur twice. -/
theorem update_eq_map (distinct : (ids items).Nodup) (key : String) (f : α → α) :
    update items key f = items.map fun item => if id item = key then f item else item := by
  induction items with
  | nil => rfl
  | cons item items ih =>
    rw [ids, List.map_cons, List.nodup_cons] at distinct
    rw [update, List.map_cons]
    split
    · rename_i same
      have others : ∀ other ∈ items, (if id other = key then f other else other) = other := fun other mem =>
        if_neg fun h => distinct.1 (List.mem_map.2 ⟨other, mem, h.trans same.symm⟩)
      rw [List.map_congr_left others, List.map_id']
    · rw [ih distinct.2]

end Keyed

/-- Entities stay where they are after a step, each as it is revised. A new one stands behind them. -/
theorem Step.map_revise_isPrefix {α : Type} [Keyed α] {items : List α} (distinct : (Keyed.ids items).Nodup)
    (step : Step α) : items.map step.revise <+: on items step := by
  cases step with
  | change key f keeps =>
    rw [on, Keyed.update_eq_map distinct]
    exact List.prefix_refl _
  | add join item keeps =>
    rw [on, Keyed.add]
    by_cases known : Keyed.id item ∈ Keyed.ids items
    · rw [if_pos (Keyed.has_iff.2 known), Keyed.update_eq_map distinct]
      exact List.prefix_refl _
    · have same : ∀ old ∈ items, (add join item keeps).revise old = old := fun old mem =>
        revise_of_ne fun h => known (List.mem_map.2 ⟨old, mem, h⟩)
      rw [if_neg (mt Keyed.has_iff.1 known), List.map_congr_left same, List.map_id']
      exact List.prefix_append ..

namespace Step

variable {α : Type} [Keyed α] {items : List α}

/-- What becomes of an entity by steps, one after the other. -/
def reviseAll (steps : List (Step α)) (old : α) : α := steps.foldl (fun old step => step.revise old) old

theorem id_reviseAll (steps : List (Step α)) (old : α) : Keyed.id (reviseAll steps old) = Keyed.id old := by
  induction steps generalizing old with
  | nil => rfl
  | cons step steps ih => exact (ih (step.revise old)).trans (step.id_revise old)

theorem reviseAll_of_not_mem {steps : List (Step α)} {old : α} (h : Keyed.id old ∉ steps.map key) :
    reviseAll steps old = old := by
  induction steps with
  | nil => rfl
  | cons step steps ih =>
    rw [List.map_cons, List.mem_cons, not_or] at h
    rw [reviseAll, List.foldl_cons, revise_of_ne h.1]
    exact ih h.2

/-- The ids after steps are those that are mentioned, in the order in which they first are. -/
theorem ids_foldl_on (items : List α) (steps : List (Step α)) :
    Keyed.ids (steps.foldl on items) = Distinct.addAll (Keyed.ids items) (steps.filterMap mention?) := by
  induction steps generalizing items with
  | nil => rfl
  | cons step steps ih =>
    rw [List.foldl_cons, ih, ids_on, List.filterMap_cons]
    cases step.mention? <;> rfl

theorem map_reviseAll_isPrefix (distinct : (Keyed.ids items).Nodup) (steps : List (Step α)) :
    items.map (reviseAll steps) <+: steps.foldl on items := by
  induction steps generalizing items with
  | nil => exact ⟨[], by rw [List.append_nil]; exact List.map_id' items⟩
  | cons step steps ih =>
    obtain ⟨new, hnew⟩ := map_revise_isPrefix distinct step
    have still : (Keyed.ids (on items step)).Nodup := by
      rw [ids_on]
      exact Distinct.nodup_addAll distinct _
    have later := ih still
    rw [← hnew, List.map_append, List.map_map] at later
    exact (List.prefix_append ..).trans (hnew ▸ later)

end Step

/-! ## The index -/

namespace Indexed

variable {α : Type} [Keyed α] {s : Indexed α}

/-- The entities and the index after a step. -/
def apply (s : Indexed α) : Step α → Indexed α
  | .add join item _ => s.add join item
  | .change key f _ => s.change key f

/-- An entity that is added unless its id is taken leaves the one that has the id as it is. -/
theorem ensure_eq_apply (s : Indexed α) (item : α) : s.ensure item = s.apply (.ensure item) := by
  rw [Indexed.ensure, has]
  show _ = s.add (fun old _ => old) item
  rw [Indexed.add]
  cases s.places (Keyed.id item) with
  | none => rfl
  | some i =>
    refine (congrArg (Indexed.mk · s.places) ?_).symm
    exact List.modify_id i s.entries

namespace Coherent

variable (h : s.Coherent)
include h

/-- No id occurs twice, for the index has one place for it. -/
theorem nodup : (Keyed.ids s.entries).Nodup := by
  refine List.nodup_iff_getElem?_ne_getElem?.2 fun i j before inside same => ?_
  rw [Keyed.ids, List.length_map] at inside
  rw [Keyed.ids, List.getElem?_map, List.getElem?_map, List.getElem?_eq_getElem inside, Option.map_some] at same
  have left := (h _ i).2 same
  have right := (h (Keyed.id s.entries[j]) j).2 (by rw [List.getElem?_eq_getElem inside, Option.map_some])
  exact absurd (Option.some.inj (left.symm.trans right)) (Nat.ne_of_lt before)

/-- The index has the ids that are there and no others. -/
theorem has_iff (key : String) : s.has key = true ↔ key ∈ Keyed.ids s.entries := by
  rw [h.has_eq, Keyed.has_iff]

/-- What is found through the index is the one entity with the id. -/
theorem find?_eq_some {key : String} {item : α} :
    s.find? key = some item ↔ item ∈ s.entries ∧ Keyed.id item = key := by
  rw [find?, Option.bind_eq_some_iff, List.mem_iff_getElem?]
  constructor
  · rintro ⟨i, hi, hitem⟩
    have same := (h key i).1 hi
    rw [hitem] at same
    exact ⟨⟨i, hitem⟩, Option.some.inj same⟩
  · rintro ⟨⟨i, hitem⟩, rfl⟩
    exact ⟨i, (h _ i).2 (by rw [hitem, Option.map_some]), hitem⟩

theorem apply (step : Step α) : (s.apply step).Coherent := by
  cases step with
  | add join item keeps => exact h.add keeps
  | change key f keeps => exact h.change keeps

/-- The entities after a step are those of the list without its index. -/
theorem entries_apply (step : Step α) : (s.apply step).entries = step.on s.entries := by
  cases step with
  | add => exact h.entries_add
  | change => exact h.entries_change

/-- The same after steps, one after the other. -/
theorem foldl_apply (steps : List (Step α)) :
    (steps.foldl Indexed.apply s).Coherent ∧ (steps.foldl Indexed.apply s).entries = steps.foldl Step.on s.entries := by
  induction steps generalizing s with
  | nil => exact ⟨h, rfl⟩
  | cons step steps ih =>
    rw [List.foldl_cons, List.foldl_cons, ← h.entries_apply step]
    exact ih (h.apply step)

end Coherent

end Indexed

/-- The entities of a list with distinct ids. -/
def Roster.of {α : Type} [Keyed α] (items : List α) (distinct : (Keyed.ids items).Nodup) : Roster α where
  index := { entries := items, places := Keyed.index? items }
  coherent key i := by
    show Keyed.index? items key = some i ↔ items[i]?.map Keyed.id = some key
    rw [Keyed.index?, List.findIdx?_eq_some_iff_getElem, Option.map_eq_some_iff]
    constructor
    · rintro ⟨inside, same, -⟩
      exact ⟨items[i], List.getElem?_eq_getElem inside, eq_of_beq same⟩
    · rintro ⟨item, found, rfl⟩
      obtain ⟨inside, rfl⟩ := List.getElem?_eq_some_iff.1 found
      refine ⟨inside, beq_self_eq_true _, fun j before same => ?_⟩
      have apart := List.nodup_iff_getElem?_ne_getElem?.1 distinct j i before (by simpa [Keyed.ids] using inside)
      have within := Nat.lt_trans before inside
      rw [Keyed.ids, List.getElem?_map, List.getElem?_map, List.getElem?_eq_getElem within,
        List.getElem?_eq_getElem inside, Option.map_some, Option.map_some, eq_of_beq same] at apart
      exact apart rfl

@[simp] theorem Roster.entries_of {α : Type} [Keyed α] {items : List α} (distinct : (Keyed.ids items).Nodup) :
    (Roster.of items distinct).entries = items :=
  rfl

end DiagramText
