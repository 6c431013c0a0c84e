import DiagramText.Proofs.Reading
import DiagramText.Proofs.Style.Overlay
import DiagramText.Radar
import Mathlib.Data.List.Nodup
import Mathlib.Data.Set.List

/-!
# Curves by the ids of their axes

A curve may give its values in any order when it names the axis of each. Putting a value in the place of its axis
changes nothing in the other places as long as no two axes share an id (`put_map`), so after all of them the place of
an axis holds the last value given for it (`foldlM_put`). A curve is resolved when every key names an axis and no place
is empty (`resolve_keyed_eq_ok`). In particular the order of the pairs does not matter when each axis is named
once (`resolve_keyed`).
-/

namespace DiagramText.Radar.Chart

open Reading Table

variable {α : Type} {c : Chart} {curve key : String} {place : Nat} {pairs : Table α} {values : List α}

/-- The ids of the axes. -/
def axisIds (c : Chart) : List String := c.axes.map Axis.id

/-- The place of an axis is the one in which its id stands. -/
theorem getElem?_of_axisIndex? (h : c.axisIndex? key = some place) : c.axisIds[place]? = some key := by
  obtain ⟨inside, same, -⟩ := List.findIdx?_eq_some_iff_getElem.1 h
  rw [axisIds, List.getElem?_map, List.getElem?_eq_getElem inside, Option.map_some, eq_of_beq same]

theorem axisIndex?_eq_none : c.axisIndex? key = none ↔ key ∉ c.axisIds := by
  simp [axisIndex?, axisIds, List.findIdx?_eq_none_iff]

/-! ## Putting values in their places -/

/-- A value that is put in the place of its axis changes what that axis has, and no other one. -/
theorem put_map (distinct : c.axisIds.Nodup) (hkey : key ∈ c.axisIds) (value : α) (f : String → Option α) :
    c.put curve (c.axisIds.map f) (key, value) =
      .ok (c.axisIds.map fun id => if key = id then some value else f id) := by
  obtain ⟨place, found⟩ := Option.ne_none_iff_exists'.1 fun none => axisIndex?_eq_none.1 none hkey
  obtain ⟨inside, here⟩ := List.getElem?_eq_some_iff.1 (getElem?_of_axisIndex? found)
  simp only [put, found, Except.ok.injEq]
  refine List.ext_getElem (by simp) fun i _ hi => ?_
  rw [List.length_map] at hi
  simp only [List.getElem_set, List.getElem_map, ← here, List.Nodup.getElem_inj_iff distinct]

/-- After all values the place of an axis holds the last one that is given for it. -/
theorem foldlM_put (distinct : c.axisIds.Nodup) (known : ∀ key ∈ keys pairs, key ∈ c.axisIds)
    (f : String → Option α) : pairs.foldlM (c.put curve) (c.axisIds.map f) =
      .ok (c.axisIds.map fun id => (last? pairs id).or (f id)) := by
  induction pairs generalizing f with
  | nil => rfl
  | cons pair pairs ih =>
    obtain ⟨key, value⟩ := pair
    obtain ⟨isAxis, known⟩ := List.forall_mem_cons.1 known
    rw [List.foldlM_cons, put_map distinct isAxis]
    refine (ih known _).trans (congrArg Except.ok (List.map_congr_left fun id _ => ?_))
    rw [last?_cons, Option.or_assoc]
    split <;> rfl

/-- A value whose key names no axis has no place. -/
theorem known_of_foldlM {places places' : List (Option α)} (h : pairs.foldlM (c.put curve) places = .ok places') :
    ∀ key ∈ keys pairs, key ∈ c.axisIds := by
  intro key hkey
  obtain ⟨⟨key, value⟩, hpair, rfl⟩ := List.mem_map.1 hkey
  obtain ⟨before, after, step⟩ := exists_of_foldlM h _ hpair
  refine Decidable.not_not.1 fun unknown => ?_
  rw [put, axisIndex?_eq_none.2 unknown] at step
  cases step

/-! ## Resolving a curve -/

/-- The values are taken from their places if and only if none of these is empty. -/
theorem mapM_need_eq_ok {axes : List Axis} {places : List (Option α)} (h : places.length = axes.length) :
    (axes.zip places).mapM (fun (axis, value) => axis.need curve value) = .ok values ↔
      places = values.map some := by
  induction axes generalizing places values with
  | nil =>
    obtain rfl := List.eq_nil_of_length_eq_zero h
    rw [List.zip_nil_left, List.mapM_nil, pure_eq_ok, eq_comm, ← List.map_eq_nil_iff, eq_comm]
  | cons axis axes ih =>
    obtain ⟨place, places, rfl⟩ := List.exists_cons_of_length_eq_add_one h
    rw [List.zip_cons_cons, List.mapM_cons, bind_eq_ok]
    simp only [bind_eq_ok, pure_eq_ok, ih (Nat.succ.inj h)]
    cases place with
    | none => cases values <;> simp [Axis.need]
    | some value => cases values <;> simp [Axis.need, and_comm]

/-- A keyed curve is resolved when its keys name axes and every axis has a value, which is the last one given. -/
theorem resolve_keyed_eq_ok (distinct : c.axisIds.Nodup) :
    c.resolve curve (.keyed pairs) = .ok values ↔
      (∀ key ∈ keys pairs, key ∈ c.axisIds) ∧ c.axisIds.map (last? pairs) = values.map some := by
  have empty : List.replicate c.axes.length (none : Option α) = c.axisIds.map fun _ => none := by
    rw [List.map_const', axisIds, List.length_map]
  rw [resolve, empty, bind_eq_ok]
  have filled (known : ∀ key ∈ keys pairs, key ∈ c.axisIds) :
      pairs.foldlM (c.put curve) (c.axisIds.map fun _ => none) = .ok (c.axisIds.map (last? pairs)) := by
    simpa only [Option.or_none] using foldlM_put distinct known fun _ => none
  constructor
  · rintro ⟨places, hplaces, h⟩
    have known := known_of_foldlM hplaces
    obtain rfl := Except.ok.inj ((filled known).symm.trans hplaces)
    exact ⟨known, (mapM_need_eq_ok (by simp [axisIds])).1 h⟩
  · rintro ⟨known, h⟩
    exact ⟨_, filled known, (mapM_need_eq_ok (by simp [axisIds])).2 h⟩

/-- Every axis has a value if and only if it is named. -/
theorem exists_values_iff :
    (∃ values : List α, c.axisIds.map (last? pairs) = values.map some) ↔ ∀ id ∈ c.axisIds, id ∈ keys pairs := by
  constructor
  · rintro ⟨values, h⟩ id hid
    by_contra missing
    have given : last? pairs id ∈ values.map some := h ▸ List.mem_map_of_mem hid
    simp [last?_eq_none.2 missing] at given
  · intro named
    have full : c.axisIds.map (last? pairs) ∈ Set.range (List.map some) := by
      rw [Set.range_list_map]
      intro value hvalue
      obtain ⟨id, hid, rfl⟩ := List.mem_map.1 hvalue
      obtain ⟨last, hlast⟩ := Option.ne_none_iff_exists'.1 fun missing => last?_eq_none.1 missing (named id hid)
      exact ⟨last, hlast.symm⟩
    obtain ⟨values, hvalues⟩ := full
    exact ⟨values, hvalues.symm⟩

/-- Pairs that name each axis once stand for their values in the order of the axes. -/
theorem resolve_keyed_of_perm (distinct : c.axisIds.Nodup) (hlength : values.length = c.axes.length)
    (perm : pairs.Perm (c.axisIds.zip values)) : c.resolve curve (.keyed pairs) = .ok values := by
  have hids : values.length = c.axisIds.length := by rw [hlength, axisIds, List.length_map]
  have sameKeys : (keys pairs).Perm c.axisIds := by
    have := perm.map Prod.fst
    rwa [List.map_fst_zip (Nat.le_of_eq hids.symm)] at this
  refine (resolve_keyed_eq_ok distinct).2 ⟨fun key hkey => sameKeys.mem_iff.1 hkey, ?_⟩
  refine List.ext_getElem (by simp [hids]) fun i hi hi' => ?_
  rw [List.getElem_map, List.getElem_map]
  refine last?_of_mem (sameKeys.nodup_iff.2 distinct) (perm.mem_iff.2 ?_)
  have inZip : i < (c.axisIds.zip values).length := by simpa [hids] using hi
  have given := List.getElem_mem inZip
  rwa [List.getElem_zip] at given

/-- A keyed curve is resolved if and only if each of its keys names an axis and each axis is named. Every axis then has
the last value that is given for it. So pairs that name each axis once are as good as their values in the order of the
axes, in whatever order they stand. -/
theorem resolve_keyed (distinct : c.axisIds.Nodup) (curve : String) (pairs : Table α) :
    ((∃ values, c.resolve curve (.keyed pairs) = .ok values) ↔
        (∀ key ∈ keys pairs, key ∈ c.axisIds) ∧ ∀ id ∈ c.axisIds, id ∈ keys pairs) ∧
      (∀ values : List α, c.resolve curve (.keyed pairs) = .ok values →
        ∀ i : Nat, values[i]? = c.axisIds[i]?.bind (last? pairs)) ∧
      ∀ values, values.length = c.axes.length → pairs.Perm (c.axisIds.zip values) →
        c.resolve curve (.keyed pairs) = c.resolve curve (.positional values) := by
  refine ⟨?_, fun values h i => ?_, fun values hlength perm => ?_⟩
  · simp only [resolve_keyed_eq_ok distinct, exists_and_left, exists_values_iff]
  · have each := congrArg (fun places : List (Option α) => places[i]?) ((resolve_keyed_eq_ok distinct).1 h).2
    simp only [List.getElem?_map] at each
    cases value : values[i]? <;> cases axis : c.axisIds[i]? <;> simp_all
  · rw [resolve_keyed_of_perm distinct hlength perm, resolve, if_pos hlength]

/-- An axis that is named twice has its later value, and three pairs in another order than the axes are resolved like
their values in order. -/
theorem resolve_keyed_three :
    let c : Chart := { axes := [⟨"a", "A"⟩, ⟨"b", "B"⟩, ⟨"c", "C"⟩] }
    c.axisIds.Nodup ∧
      (∃ values, c.resolve "x" (.keyed [("c", 9), ("a", 1), ("c", 3), ("b", 2)]) = .ok values ∧
        values[2]? = some 3) ∧
      [("c", 3), ("a", 1), ("b", 2)].Perm (c.axisIds.zip [1, 2, 3]) ∧
      c.resolve "x" (.keyed [("c", 3), ("a", 1), ("b", 2)]) = c.resolve "x" (.positional [1, 2, 3]) := by
  intro c
  have distinct : c.axisIds.Nodup := by decide
  obtain ⟨succeeds, last, -⟩ := resolve_keyed distinct "x" [("c", 9), ("a", 1), ("c", 3), ("b", 2)]
  obtain ⟨values, resolved⟩ := succeeds.2 (by decide)
  obtain ⟨-, -, inOrder⟩ := resolve_keyed distinct "x" [("c", 3), ("a", 1), ("b", 2)]
  exact ⟨distinct, ⟨values, resolved, last values resolved 2⟩, by decide, inOrder _ rfl (by decide)⟩

end DiagramText.Radar.Chart
