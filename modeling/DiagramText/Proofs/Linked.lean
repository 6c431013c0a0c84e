import DiagramText.Indexed

/-!
# Models with links

Entities with ids, and links whose ends are ids. A step of building such a model may add entities and
links but takes no entity away, and each new end is the id of an entity once the step is done
(`Grows`). Steps of this kind compose, so that all links of a model that was built by them lead to
entities (`Grows.closed`).

What adding, changing and declaring an entity does to the ids that are taken is stated for all lists of
entities at once (`Keyed.has_add`, `Keyed.has_update`, `Keyed.has_ensure`), and so is what is then found
under an id (`Keyed.find?_add`, `Keyed.find?_update`). A roster has the ids of its list (`Roster.has_add`). A view
that keeps ids may be taken before or after an entity is added (`Keyed.map_add`).
-/

namespace DiagramText

namespace Keyed

variable {α : Type} [Keyed α]

theorem has_cons (item : α) (rest : List α) (key : String) :
    has (item :: rest) key = (id item == key || has rest key) := rfl

theorem has_append (items more : List α) (key : String) :
    has (items ++ more) key = (has items key || has more key) := by
  simp [has]

/-- A change that leaves an entity its id leaves the same ids taken. -/
theorem has_update {change : α → α} {key : String} (h : ∀ a, id a = key → id (change a) = key)
    (items : List α) (other : String) : has (update items key change) other = has items other := by
  induction items with
  | nil => rfl
  | cons a rest ih =>
    simp only [update]
    split
    · rename_i found
      rw [has_cons, has_cons, h a found, found]
    · rw [has_cons, has_cons, ih]

/-- After an entity is added, its id is taken as well. -/
theorem has_add {join : α → α → α} {item : α} (h : ∀ a, id a = id item → id (join a item) = id item)
    (items : List α) (key : String) :
    has (add join items item) key = (has items key || id item == key) := by
  unfold add
  split
  · rename_i taken
    rw [has_update h]
    by_cases same : id item = key
    · simp [← same, taken]
    · simp [same]
  · rw [has_append, has_cons]
    simp [has]

theorem has_ensure (items : List α) (item : α) (key : String) :
    has (ensure items item) key = (has items key || id item == key) :=
  has_add (fun _ same => same) items key

theorem find?_cons (item : α) (rest : List α) (key : String) :
    find? (item :: rest) key = if id item = key then some item else find? rest key := by
  simp only [find?, List.find?_cons]
  split <;> simp_all

theorem find?_append (items more : List α) (key : String) :
    find? (items ++ more) key = (find? items key).or (find? more key) :=
  List.find?_append

theorem has_eq_isSome (items : List α) (key : String) : has items key = (find? items key).isSome := by
  rw [Bool.eq_iff_iff, has, find?, List.any_eq_true, List.find?_isSome]

theorem find?_update {change : α → α} {key : String} (h : ∀ a, id a = key → id (change a) = key)
    (items : List α) (other : String) :
    find? (update items key change) other =
      if key = other then (find? items key).map change else find? items other := by
  induction items with
  | nil => simp [update, find?]
  | cons a rest ih =>
    by_cases found : id a = key
    · rw [update, if_pos found, find?_cons, find?_cons, find?_cons, h a found, if_pos found, found]
      split <;> rfl
    · rw [update, if_neg found, find?_cons, find?_cons, find?_cons, ih, if_neg found]
      by_cases same : key = other
      · subst same
        simp [found]
      · simp [same]

theorem find?_add {join : α → α → α} {item : α} (h : ∀ a, id a = id item → id (join a item) = id item)
    (items : List α) (key : String) :
    find? (add join items item) key =
      if id item = key then some ((find? items key).elim item (join · item)) else find? items key := by
  rw [add, has_eq_isSome]
  by_cases same : id item = key
  · subst same
    rw [if_pos rfl]
    cases old : find? items (id item) with
    | none => simp [find?_append, old, find?_cons]
    | some a => simp [find?_update h, old]
  · rw [if_neg same]
    split
    · rw [find?_update h, if_neg same]
    · rw [find?_append, find?_cons, if_neg same, find?, find?, List.find?_nil, Option.or_none]

theorem prefix_foldl_ensure (items more : List α) : items <+: more.foldl ensure items := by
  induction more generalizing items with
  | nil => exact List.prefix_refl items
  | cons item more ih =>
    refine List.IsPrefix.trans ?_ (ih _)
    rw [ensure_eq]
    split
    · exact List.prefix_refl items
    · exact List.prefix_append items [item]

theorem mem_foldl_ensure {more items : List α} {item : α} (h : item ∈ more.foldl ensure items) :
    item ∈ items ∨ item ∈ more := by
  induction more generalizing items with
  | nil => exact .inl h
  | cons first more ih =>
    obtain h | h := ih h
    · rw [ensure_eq] at h
      split at h
      · exact .inl h
      · rw [List.mem_append, List.mem_singleton] at h
        exact h.imp_right fun same => List.mem_cons.2 (.inl same)
    · exact .inr (List.mem_cons_of_mem first h)

section

variable {β : Type} (view : α → β)

/-- A view of entities that a change does not touch. -/
theorem map_update_same {change : α → α} (h : ∀ a, view (change a) = view a) (items : List α) (key : String) :
    (update items key change).map view = items.map view := by
  induction items with
  | nil => rfl
  | cons a rest ih =>
    rw [update]
    split <;> simp [h, ih]

theorem has_map [Keyed β] (hid : ∀ a, id (view a) = id a) (items : List α) (key : String) :
    has (items.map view) key = has items key := by
  simp [has, Function.comp_def, hid]

theorem find?_map [Keyed β] (hid : ∀ a, id (view a) = id a) (items : List α) (key : String) :
    find? (items.map view) key = (find? items key).map view := by
  rw [find?, List.find?_map]
  simp only [Function.comp_def, hid, find?]

theorem map_update [Keyed β] (hid : ∀ a, id (view a) = id a) {change : α → α} {change' : β → β}
    (h : ∀ a, view (change a) = change' (view a)) (items : List α) (key : String) :
    (update items key change).map view = update (items.map view) key change' := by
  induction items with
  | nil => rfl
  | cons a rest ih =>
    rw [update, List.map_cons, update, hid]
    split
    · rw [List.map_cons, h]
    · rw [List.map_cons, ih]

/-- A view that keeps ids may be taken before or after an entity is added. -/
theorem map_add [Keyed β] (hid : ∀ a, id (view a) = id a) {join : α → α → α} {join' : β → β → β}
    (h : ∀ a b, view (join a b) = join' (view a) (view b)) (items : List α) (item : α) :
    (add join items item).map view = add join' (items.map view) (view item) := by
  rw [add, add, has_map view hid, hid]
  split
  · exact map_update view hid (fun a => h a item) items (id item)
  · rw [List.map_append, List.map_singleton]

end

end Keyed

namespace Roster

variable {α : Type} [Keyed α] (r : Roster α) (key : String)

theorem has_add {join : α → α → α} {item : α} (keeps : Keyed.KeepsId (join · item)) :
    (r.add join item keeps).has key = (r.has key || Keyed.id item == key) := by
  rw [has_eq, has_eq, entries_add]
  exact Keyed.has_add (fun old same => (keeps.id_eq old).trans same) r.entries key

theorem has_ensure (item : α) : (r.ensure item).has key = (r.has key || Keyed.id item == key) := by
  rw [has_eq, has_eq, entries_ensure]
  exact Keyed.has_ensure r.entries item key

theorem has_change {target : String} {f : α → α} (keeps : Keyed.KeepsId f) :
    (r.change target f keeps).has key = r.has key := by
  rw [has_eq, has_eq, entries_change]
  exact Keyed.has_update (fun old same => (keeps.id_eq old).trans same) r.entries key

end Roster

/-- A loop leaves alone what each of its steps leaves alone. -/
theorem foldl_same {μ α β : Type} {view : μ → β} {step : μ → α → μ} {items : List α}
    (h : ∀ a ∈ items, ∀ m, view (step m a) = view m) (m : μ) : view (items.foldl step m) = view m := by
  induction items generalizing m with
  | nil => rfl
  | cons a items ih =>
    rw [List.forall_mem_cons] at h
    rw [List.foldl_cons, ih h.2, h.1]

/-- A step of building a model, from `m` to `m'`: it keeps entities, and the ends of new links are
entities after it. `has` says which ids are taken, and `ends` lists the ends of all links. -/
structure Grows {μ : Type} (has : μ → String → Bool) (ends : μ → List String) (m m' : μ) : Prop where
  keeps : ∀ id, has m id = true → has m' id = true
  ends_known : ∀ id ∈ ends m', id ∈ ends m ∨ has m' id = true

namespace Grows

variable {μ α : Type} {has : μ → String → Bool} {ends : μ → List String} {m m' m'' : μ}

@[refl]
theorem refl (m : μ) : Grows has ends m m := ⟨fun _ known => known, fun _ known => .inl known⟩

theorem trans (first : Grows has ends m m') (second : Grows has ends m' m'') :
    Grows has ends m m'' where
  keeps id known := second.keeps id (first.keeps id known)
  ends_known id hid := by
    obtain old | known := second.ends_known id hid
    · exact (first.ends_known id old).imp_right (second.keeps id)
    · exact .inr known

/-- A step that adds no link. -/
theorem of_ends_eq (keeps : ∀ id, has m id = true → has m' id = true) (same : ends m' = ends m) :
    Grows has ends m m' :=
  ⟨keeps, fun _ hid => .inl (same ▸ hid)⟩

/-- A step that adds one link, between entities that are there after it. -/
theorem of_link {source target : String} (keeps : ∀ id, has m id = true → has m' id = true)
    (added : ends m' = ends m ++ [source, target]) (hsource : has m' source = true)
    (htarget : has m' target = true) : Grows has ends m m' := by
  refine ⟨keeps, fun id hid => ?_⟩
  rw [added, List.mem_append] at hid
  refine hid.imp_right fun new => ?_
  obtain rfl | rfl : id = source ∨ id = target := by simpa using new
  · exact hsource
  · exact htarget

/-- A step that adds one link and declares both of its ends. -/
theorem of_declared_link (source target : String)
    (declares : ∀ id, has m' id = (has m id || source == id || target == id))
    (added : ends m' = ends m ++ [source, target]) : Grows has ends m m' :=
  .of_link (fun id known => by simp [declares, known]) added (by simp [declares])
    (by simp [declares])

/-- What each step of a loop is, the loop is. -/
theorem foldl {step : μ → α → μ} (h : ∀ m a, Grows has ends m (step m a)) (items : List α) (m : μ) :
    Grows has ends m (items.foldl step m) := by
  induction items generalizing m with
  | nil => exact refl m
  | cons a items ih => exact (h m a).trans (ih (step m a))

/-- All links of a model that grew from one without links lead to entities. -/
theorem closed (h : Grows has ends m m') (none : ends m = []) :
    ∀ id ∈ ends m', has m' id = true := by
  intro id hid
  obtain old | known := h.ends_known id hid
  · rw [none] at old
    cases old
  · exact known

/-- So none of them has an end that is the id of no entity. -/
theorem no_unknown_end (h : Grows has ends m m') (none : ends m = []) {id : String} :
    ¬(id ∈ ends m' ∧ has m' id = false) := by
  rintro ⟨hid, unknown⟩
  rw [h.closed none id hid] at unknown
  cases unknown

end Grows

end DiagramText
