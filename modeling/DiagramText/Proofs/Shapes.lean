import DiagramText.Proofs.Reading
import Mathlib.Data.List.Induction

/-!
# The shape that reads a statement

Shapes are given one after the other, and each is put behind those with at least as many fields. Two facts about the
list say all of it (`Kept`): it descends in the number of fields, and among the shapes with one number of fields it has
the order in which they were given. One more shape keeps both (`Kept.place`), so any number of shapes does
(`kept_ofList`).

Hence the first shape in the list that fits a statement is the first given of the longest ones that fit it
(`IsChosen`), whatever the order in which signatures of different lengths came and however often one came. It reads the
statement, and only if no shape fits is there none (`read_chosen`).
-/

namespace DiagramText.Shapes

open Reading

variable {ε α : Type} {given entries : List (List String × (Tree → Reading ε α))} {signature : List String}
  {read : Tree → Reading ε α} {entry other : List String × (Tree → Reading ε α)} {t : Tree} {i j : Nat}

/-! ## The order of the shapes -/

/-- The shapes that were given are kept with the longer ones first, those of one length as they were given. -/
structure Kept (given entries : List (List String × (Tree → Reading ε α))) : Prop where
  descends : entries.Pairwise fun a b => b.1.length ≤ a.1.length
  stable : ∀ n, entries.filter (·.1.length == n) = given.filter (·.1.length == n)

theorem kept_nil : Kept ([] : List (List String × (Tree → Reading ε α))) [] := ⟨.nil, fun _ => rfl⟩

theorem descends_place (h : entries.Pairwise fun a b => b.1.length ≤ a.1.length) :
    (place signature read entries).Pairwise fun a b => b.1.length ≤ a.1.length := by
  induction entries with
  | nil => exact List.pairwise_singleton _ _
  | cons first rest ih =>
    obtain ⟨shorter, later⟩ := List.pairwise_cons.1 h
    rw [place]
    split
    · rename_i less
      refine List.pairwise_cons.2 ⟨fun e he => ?_, h⟩
      obtain rfl | he := List.mem_cons.1 he
      · exact Nat.le_of_lt less
      · exact Nat.le_trans (shorter e he) (Nat.le_of_lt less)
    · rename_i notLess
      refine List.pairwise_cons.2 ⟨fun e he => ?_, ih later⟩
      obtain rfl | he := mem_place.1 he
      · exact Nat.le_of_not_lt notLess
      · exact shorter e he

/-- A shape is put behind all others of its length. -/
theorem filter_place (h : entries.Pairwise fun a b => b.1.length ≤ a.1.length) (n : Nat) :
    (place signature read entries).filter (·.1.length == n) =
      entries.filter (·.1.length == n) ++ [(signature, read)].filter (·.1.length == n) := by
  induction entries with
  | nil => rfl
  | cons first rest ih =>
    obtain ⟨shorter, later⟩ := List.pairwise_cons.1 h
    rw [place]
    split
    · rename_i less
      by_cases same : signature.length = n
      · -- from here on all signatures are shorter, so that none of them has the length
        have none : (first :: rest).filter (·.1.length == n) = [] := by
          refine List.filter_eq_nil_iff.2 fun e he => ?_
          have : e.1.length ≤ first.1.length := by
            obtain rfl | he := List.mem_cons.1 he
            · exact Nat.le_refl _
            · exact shorter e he
          simp only [beq_iff_eq]
          omega
        rw [List.filter_cons_of_pos (by simpa using same), none]
        simp [same]
      · rw [List.filter_cons_of_neg (by simpa using same)]
        simp [same]
    · rw [List.filter_cons, List.filter_cons, ih later]
      split <;> rfl

theorem Kept.place (h : Kept given entries) :
    Kept (given ++ [(signature, read)]) (Shapes.place signature read entries) :=
  ⟨descends_place h.descends, fun n => by rw [filter_place h.descends, h.stable, List.filter_append]⟩

/-- Any number of shapes may be given. -/
theorem kept_ofList (given : List (List String × (Tree → Reading ε α))) : Kept given (ofList given).entries := by
  induction given using List.reverseRecOn with
  | nil => exact kept_nil
  | append_singleton given entry ih =>
    rw [ofList, List.foldl_append]
    exact ih.place

theorem Kept.mem_iff (h : Kept given entries) : entry ∈ entries ↔ entry ∈ given := by
  have same := congrArg (entry ∈ ·) (h.stable entry.1.length)
  simpa [List.mem_filter] using same

/-! ## The shape of a statement -/

/-- Whether a statement has all fields of a signature. -/
def Fits (signature : List String) (t : Tree) : Prop := ∀ field ∈ signature, field ∈ t.keys

theorem all_has_iff : signature.all t.has = true ↔ Fits signature t := by
  simp [Fits, Tree.has, Tree.keys]

/-- The `i`-th of the shapes given is the one for a statement: it fits, none that fits has more fields, and it is the
first of those that fit and have as many. -/
structure IsChosen (given : List (List String × (Tree → Reading ε α))) (t : Tree) (i : Nat)
    (entry : List String × (Tree → Reading ε α)) : Prop where
  stands : given[i]? = some entry
  fits : Fits entry.1 t
  longest : ∀ other ∈ given, Fits other.1 t → other.1.length ≤ entry.1.length
  earliest : ∀ j other, given[j]? = some other → Fits other.1 t → other.1.length = entry.1.length → i ≤ j

theorem IsChosen.unique (h : IsChosen given t i entry) (h' : IsChosen given t j other) : i = j ∧ entry = other := by
  have same : other.1.length = entry.1.length := Nat.le_antisymm
    (h.longest other (List.mem_of_getElem? h'.stands) h'.fits) (h'.longest entry (List.mem_of_getElem? h.stands) h.fits)
  have first : i ≤ j := h.earliest j other h'.stands h'.fits same
  obtain rfl : i = j := Nat.le_antisymm first (h'.earliest i entry h.stands h.fits same.symm)
  exact ⟨rfl, Option.some.inj (h.stands.symm.trans h'.stands)⟩

/-- The first shape in the list that fits is the one for the statement. -/
theorem Kept.exists_isChosen (h : Kept given entries) (found : entries.find? (fun e => e.1.all t.has) = some entry) :
    ∃ i, IsChosen given t i entry := by
  have fits := all_has_iff.1 (by simpa using List.find?_some found)
  have longest : ∀ other ∈ given, Fits other.1 t → other.1.length ≤ entry.1.length := by
    intro other hother hfits
    obtain ⟨-, before, behind, rfl, misfits⟩ := List.find?_eq_some_iff_append.1 found
    obtain hmem | hmem := List.mem_append.1 (h.mem_iff.2 hother)
    · have := misfits other hmem
      rw [all_has_iff.2 hfits] at this
      cases this
    · obtain rfl | hmem := List.mem_cons.1 hmem
      · exact Nat.le_refl _
      · exact (List.pairwise_cons.1 (List.pairwise_append.1 h.descends).2.1).1 other hmem
  -- among the shapes of its length it comes first as well, and those are listed as they were given
  have first : (given.filter (·.1.length == entry.1.length)).find? (fun e => e.1.all t.has) = some entry := by
    rw [← h.stable, List.find?_filter]
    obtain ⟨hall, before, behind, rfl, misfits⟩ := List.find?_eq_some_iff_append.1 found
    refine List.find?_eq_some_iff_append.2 ⟨by simpa using hall, before, behind, rfl, fun e he => ?_⟩
    have := misfits e he
    simp only [Bool.not_eq_true'] at this
    simp [this]
  rw [List.find?_filter] at first
  obtain ⟨-, i, inside, here, earlier⟩ := List.find?_eq_some_iff_getElem.1 first
  refine ⟨i, ?_, fits, longest, fun j other hj hfits same => Nat.le_of_not_lt fun less => ?_⟩
  · rw [List.getElem?_eq_getElem inside, here]
  · have := earlier j less
    rw [(List.getElem?_eq_some_iff.1 hj).2, all_has_iff.2 hfits, same, beq_self_eq_true] at this
    simp at this

theorem exists_find? (h : other ∈ entries) (fits : Fits other.1 t) :
    ∃ entry, entries.find? (fun e => e.1.all t.has) = some entry :=
  Option.isSome_iff_exists.1 (List.find?_isSome.2 ⟨other, h, all_has_iff.2 fits⟩)

theorem exists_isChosen_iff (given : List (List String × (Tree → Reading ε α))) (t : Tree) :
    (∃ i entry, IsChosen given t i entry) ↔ ∃ entry ∈ given, Fits entry.1 t := by
  constructor
  · rintro ⟨i, entry, chosen⟩
    exact ⟨entry, List.mem_of_getElem? chosen.stands, chosen.fits⟩
  · rintro ⟨other, hother, fits⟩
    have kept := kept_ofList given
    obtain ⟨entry, found⟩ := exists_find? (kept.mem_iff.2 hother) fits
    obtain ⟨i, chosen⟩ := kept.exists_isChosen found
    exact ⟨i, entry, chosen⟩

theorem IsChosen.read_eq (h : IsChosen given t i entry) : (ofList given).read t = entry.2 t := by
  have kept := kept_ofList given
  obtain ⟨found, hfound⟩ := exists_find? (kept.mem_iff.2 (List.mem_of_getElem? h.stands)) h.fits
  obtain ⟨j, chosen⟩ := kept.exists_isChosen hfound
  obtain ⟨-, rfl⟩ := h.unique chosen
  exact read_of_find? hfound

/-- Shapes with one number of fields are kept as they were given. -/
theorem entries_ofList (same : ∀ entry ∈ given, entry.1.length = i) : (ofList given).entries = given := by
  have kept := kept_ofList given
  have whole {l : List (List String × (Tree → Reading ε α))} (h : ∀ entry ∈ l, entry.1.length = i) :
      l.filter (·.1.length == i) = l :=
    List.filter_eq_self.2 fun entry he => beq_iff_eq.2 (h entry he)
  rw [← whole fun entry he => same entry (kept.mem_iff.1 he), kept.stable i, whole same]

/-- Where all shapes have one number of fields, the first given one that fits reads the statement. -/
theorem read_of_first (i : Nat) (lengths : given.map (·.1.length) = List.replicate given.length i)
    (found : (given.find? fun entry => entry.1.all t.has) = some entry) : (ofList given).read t = entry.2 t := by
  have same : ∀ entry ∈ given, entry.1.length = i := fun entry he =>
    List.eq_of_mem_replicate (lengths ▸ List.mem_map_of_mem he)
  exact read_of_find? ((entries_ofList same).symm ▸ found)

/-- The fault of a statement that no shape fits. -/
def misfit (t : Tree) : Fault ε := ⟨some t.span.offset, .noShape t.keys⟩

theorem read_of_misfit (h : ¬ ∃ entry ∈ given, Fits entry.1 t) : (ofList given).read t = .error (misfit t) := by
  have none : ((ofList given).entries.find? fun e => e.1.all t.has) = none :=
    List.find?_eq_none.2 fun e he hall => h ⟨e, (kept_ofList given).mem_iff.1 he, all_has_iff.1 hall⟩
  rw [Shapes.read, none, misfit]

/-- Whatever shapes were given in whatever order, a statement is read by the one that was given first among the longest
that fit it, if any fits. If none does, it has the fault that says so, which it can have besides only if its shape
reports this very fault itself. Statements are read one by one up to the first with a fault. -/
theorem read_chosen (given : List (List String × (Tree → Reading ε α))) :
    (∀ t,
      (∀ i entry, IsChosen given t i entry → (ofList given).read t = entry.2 t) ∧
      ((∃ i entry, IsChosen given t i entry) ↔ ∃ entry ∈ given, Fits entry.1 t) ∧
      ((ofList given).read t = .error (misfit t) ↔
        (∀ entry ∈ given, ¬ Fits entry.1 t) ∨ ∃ i entry, IsChosen given t i entry ∧ entry.2 t = .error (misfit t))) ∧
    ∀ ts,
      (∀ as, (ofList given).readAll ts = .ok as ↔ List.Forall₂ (fun t a => (ofList given).read t = .ok a) ts as) ∧
      ∀ fault, (ofList given).readAll ts = .error fault ↔
        ∃ before t after, ts = before ++ t :: after ∧ (∀ u ∈ before, ∃ a, (ofList given).read u = .ok a) ∧
          (ofList given).read t = .error fault := by
  refine ⟨fun t => ⟨fun i entry chosen => chosen.read_eq, exists_isChosen_iff given t, ?_⟩,
    fun ts => ⟨fun as => mapM_eq_ok_iff, fun fault => mapM_eq_error_iff⟩⟩
  constructor
  · intro fails
    by_cases some : ∃ entry ∈ given, Fits entry.1 t
    · obtain ⟨i, entry, chosen⟩ := (exists_isChosen_iff given t).2 some
      exact .inr ⟨i, entry, chosen, chosen.read_eq.symm.trans fails⟩
    · exact .inl fun entry hentry fits => some ⟨entry, hentry, fits⟩
  · rintro (none | ⟨i, entry, chosen, fails⟩)
    · exact read_of_misfit fun ⟨entry, hentry, fits⟩ => none entry hentry fits
    · exact chosen.read_eq.trans fails

/-- Of two shapes with the same fields the first counts, though a shorter one was given before them. -/
example :
    let shape (i : Nat) (signature : List String) : List String × (Tree → Reading Empty Nat) := (signature, fun _ => .ok i)
    let given := [shape 0 ["id"], shape 1 ["label", "id"], shape 2 ["id", "label"], shape 3 ["id", "label", "class"]]
    (ofList given).read (.mk ⟨"a[b]", 0⟩ [("id", .token ⟨"a", 0⟩), ("label", .token ⟨"b", 2⟩)]) = .ok 1 := rfl

end DiagramText.Shapes
