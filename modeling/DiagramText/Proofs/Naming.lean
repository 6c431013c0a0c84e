import Mathlib

/-!
# Given and generated names

The entities of a document have names one after the other. An entity either gives its name or gets one
that is made when its turn comes, from the names before it (`Slot`). How a kind of diagram makes names is a
matter of `Slot.make`: by counting all names before, or only those that were made, or by looking for one
that is free.

Names that count upwards do not repeat each other (`nodup_generated_of_counts`), and names that avoid
those before do not either (`nodup_generated_of_fresh`). What is left to ask of a document is whether the
names that it gives are distinct and none of them is a generated one (`nodup_ids_iff`).
-/

namespace DiagramText

/-- The name of an entity, and whether the document gives it. -/
structure Name where
  id : String
  given : Bool
deriving DecidableEq, Inhabited

/-- A place for a name, which is given there or made from the names before it. -/
inductive Slot where
  | given (id : String)
  | made (make : List Name → String)

/-- The place where a name is given, or else made. -/
def Slot.of (given? : Option String) (make : List Name → String) : Slot :=
  given?.elim (made make) given

/-- The name that is given in a place. -/
def Slot.given? : Slot → Option String
  | given id => some id
  | made _ => none

theorem Slot.of_eq_made {given? : Option String} {make make' : List Name → String}
    (h : Slot.of given? make = made make') : given? = none ∧ make' = make := by
  cases given? with
  | none => exact ⟨rfl, (Slot.made.inj h).symm⟩
  | some id => cases h

namespace Naming

/-- All names. -/
def ids (names : List Name) : List String := names.map Name.id

/-- The names that the document gives. -/
def written (names : List Name) : List String := ids (names.filter Name.given)

/-- The names that are made. -/
def generated (names : List Name) : List String := ids (names.filter (!·.given))

/-- The name in a place, after others. -/
def nameIn (before : List Name) : Slot → Name
  | .given id => ⟨id, true⟩
  | .made make => ⟨make before, false⟩

/-- The names with that of one more place. -/
def extend (before : List Name) (slot : Slot) : List Name := before ++ [nameIn before slot]

/-- The names in places one after the other. -/
def nameAll (slots : List Slot) : List Name := slots.foldl extend []

/-! ## Repetitions -/

variable {names : List Name} {slots : List Slot}

/-- No name that is made is a given one. -/
def Apart (names : List Name) : Prop := ∀ id ∈ generated names, id ∉ written names

instance (names : List Name) : Decidable (Apart names) :=
  inferInstanceAs (Decidable (∀ id ∈ generated names, id ∉ written names))

theorem perm_ids (names : List Name) : (written names ++ generated names).Perm (ids names) := by
  rw [written, generated, ids, ids, ids, ← List.map_append]
  exact (List.filter_append_perm Name.given names).map Name.id

/-- All names are distinct when those that are given are, those that are made are, and they are apart. -/
theorem nodup_ids_iff (hwritten : (written names).Nodup) (hgenerated : (generated names).Nodup) :
    (ids names).Nodup ↔ Apart names := by
  rw [← (perm_ids names).nodup_iff, List.nodup_append]
  constructor
  · rintro ⟨-, -, apart⟩ id hid given
    exact apart id given id hid rfl
  · refine fun apart => ⟨hwritten, hgenerated, ?_⟩
    rintro id given _ made rfl
    exact apart id made given

theorem mem_ids_iff {id : String} : id ∈ ids names ↔ id ∈ written names ∨ id ∈ generated names := by
  rw [← (perm_ids names).mem_iff, List.mem_append]

theorem ids_append (names more : List Name) : ids (names ++ more) = ids names ++ ids more :=
  List.map_append

theorem generated_given (before : List Name) (id : String) :
    generated (extend before (.given id)) = generated before := by
  rw [generated, extend, List.filter_append, ids_append]
  exact List.append_nil _

theorem ids_foldl_given (before : List Name) (given : List String) :
    ids ((given.map Slot.given).foldl extend before) = ids before ++ given := by
  induction given generalizing before with
  | nil => exact (List.append_nil _).symm
  | cons id given ih =>
    rw [List.map_cons, List.foldl_cons, ih, extend, ids_append, List.append_assoc]
    rfl

theorem generated_foldl_given (before : List Name) (given : List String) :
    generated ((given.map Slot.given).foldl extend before) = generated before := by
  induction given generalizing before with
  | nil => rfl
  | cons id given ih => rw [List.map_cons, List.foldl_cons, ih, generated_given]

theorem exists_ids_foldl (before : List Name) (slots : List Slot) :
    ∃ later, ids (slots.foldl extend before) = ids before ++ later := by
  induction slots generalizing before with
  | nil => exact ⟨[], (List.append_nil _).symm⟩
  | cons slot slots ih =>
    obtain ⟨later, h⟩ := ih (extend before slot)
    exact ⟨_, by rw [List.foldl_cons, h, extend, ids_append, List.append_assoc]⟩

/-- A name that was there before stays a repetition, whatever comes later. -/
theorem not_nodup_of_taken {before : List Name} {slot : Slot}
    (taken : (nameIn before slot).id ∈ ids before) :
    ¬ (ids (slots.foldl extend (extend before slot))).Nodup := by
  obtain ⟨later, h⟩ := exists_ids_foldl (extend before slot) slots
  intro distinct
  rw [h, extend, ids_append] at distinct
  exact List.disjoint_of_nodup_append (List.nodup_append.1 distinct).1 taken (List.mem_singleton_self _)

theorem generated_made (before : List Name) (make : List Name → String) :
    generated (extend before (.made make)) = generated before ++ [make before] := by
  rw [generated, extend, List.filter_append, ids_append]
  rfl

theorem written_foldl (before : List Name) (slots : List Slot) :
    written (slots.foldl extend before) = written before ++ slots.filterMap Slot.given? := by
  induction slots generalizing before with
  | nil => exact (List.append_nil _).symm
  | cons slot slots ih =>
    rw [List.foldl_cons, ih, written, written, extend, List.filter_append, ids_append, List.append_assoc]
    cases slot <;> rfl

/-! ## Names that are made -/

/-- What holds of no names and is kept by each place holds of the names in all places. -/
theorem nameAll_invariant {P : List Name → Prop} (start : P [])
    (keeps : ∀ before, ∀ slot ∈ slots, P before → P (extend before slot)) : P (nameAll slots) := by
  rw [nameAll]
  generalize ([] : List Name) = before at start
  induction slots generalizing before with
  | nil => exact start
  | cons slot slots ih =>
    exact ih (fun before slot' h => keeps before slot' (List.mem_cons_of_mem _ h)) _
      (keeps before slot List.mem_cons_self start)

/-- Names do not repeat each other when each that is made is a new one. -/
theorem nodup_generated {P : List Name → Prop} (start : P [])
    (keeps : ∀ before, ∀ slot ∈ slots, P before → P (extend before slot))
    (fresh : ∀ before make, .made make ∈ slots → P before → make before ∉ generated before) :
    (generated (nameAll slots)).Nodup := by
  refine (nameAll_invariant (P := fun names => P names ∧ (generated names).Nodup)
    ⟨start, List.nodup_nil⟩ ?_).2
  rintro before slot hslot ⟨holds, distinct⟩
  refine ⟨keeps before slot hslot holds, ?_⟩
  cases slot with
  | given id => rwa [generated_given]
  | made make =>
    rw [generated_made]
    exact List.nodup_append_comm.1 (List.nodup_cons.2 ⟨fresh before make hslot holds, distinct⟩)

/-- Names that avoid those before do not repeat each other. -/
theorem nodup_generated_of_fresh
    (hmake : ∀ make, .made make ∈ slots → ∀ before, make before ∉ ids before) :
    (generated (nameAll slots)).Nodup :=
  nodup_generated (P := fun _ => True) trivial (fun _ _ _ _ => trivial)
    fun before make hslot _ old => hmake make hslot before (mem_ids_iff.2 (.inr old))

/-- A label tells the number behind it. -/
theorem number_eq_of_label (label : String) {m n : Nat}
    (same : label ++ toString m = label ++ toString n) : m = n :=
  Nat.repr_injective (String.append_right_inj label |>.1 same)

/-- Names that are made of a label and a count do not repeat each other, if the count goes up with each
of them. -/
theorem nodup_generated_of_counts {labels : List String} {count : List Name → Nat}
    (hlabels : ∀ label ∈ labels, ∀ label' ∈ labels, ∀ m n : Nat,
      label ++ toString m = label' ++ toString n → m = n)
    (hcount : ∀ before slot, count before ≤ count (extend before slot))
    (hrises : ∀ before make, count before < count (extend before (.made make)))
    (hmake : ∀ make, .made make ∈ slots → ∀ before,
      ∃ label ∈ labels, make before = label ++ toString (count before)) :
    (generated (nameAll slots)).Nodup := by
  refine nodup_generated (P := fun names => ∀ id ∈ generated names, ∃ label ∈ labels, ∃ n < count names,
    id = label ++ toString n) nofun ?_ ?_
  · intro before slot hslot counted id hid
    have old (hid : id ∈ generated before) :
        ∃ label ∈ labels, ∃ n < count (extend before slot), id = label ++ toString n := by
      obtain ⟨label, hlabel, n, hn, rfl⟩ := counted id hid
      exact ⟨label, hlabel, n, Nat.lt_of_lt_of_le hn (hcount before slot), rfl⟩
    cases slot with
    | given other => exact old (generated_given before other ▸ hid)
    | made make =>
      rw [generated_made, List.mem_append, List.mem_singleton] at hid
      obtain hid | rfl := hid
      · exact old hid
      · obtain ⟨label, hlabel, e⟩ := hmake make hslot before
        exact ⟨label, hlabel, count before, hrises before make, e⟩
  · intro before make hslot counted old
    obtain ⟨label, hlabel, e⟩ := hmake make hslot before
    obtain ⟨label', hlabel', n, hn, same⟩ := counted _ old
    have := hlabels label hlabel label' hlabel' _ _ (e.symm.trans same)
    omega

end Naming

end DiagramText
