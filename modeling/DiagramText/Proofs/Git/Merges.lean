import DiagramText.Proofs.Git.Branches

/-!
# Merges

A branch is merged if its head cannot be reached from the head that is checked out (`merge_eq_ok`). The new commit
lies above both heads, so that what was on either branch is on the one that is checked out, and the same merge is
refused from then on.
-/

namespace DiagramText.Git

namespace History

variable {h h' : History} {name id : String}

theorem isAncestor_iff {ancestor commit : String} :
    h.isAncestor ancestor commit = true ↔ Relation.TransGen h.HasParent commit ancestor :=
  meets_iff (Nat.lt_succ_self _)

theorem not_reaches_iff {start : String} :
    ¬h.Reaches start id ↔ id ≠ start ∧ ¬Relation.TransGen h.HasParent start id := by
  rw [Reaches, Relation.reflTransGen_iff_eq_or_transGen, not_or]

/-- A head is merged already if it can be reached from the head that is checked out. -/
theorem merged_iff {theirs ours : String} :
    (ours = theirs || h.isAncestor theirs ours) = true ↔ h.Reaches ours theirs := by
  rw [Bool.or_eq_true, decide_eq_true_eq, isAncestor_iff, eq_comm, ← Relation.reflTransGen_iff_eq_or_transGen]
  rfl

/-- A branch is merged if both heads are there and its own cannot be reached from the other one. -/
theorem merge_eq_ok {details : Details} {made : String × History} :
    h.merge name details = .ok made ↔
      ∃ theirs ours, h.head? name = some theirs ∧ h.currentHead? = some ours ∧ name ≠ h.current ∧
        ¬h.Reaches ours theirs ∧ h.push details .merge [ours, theirs] = .ok made := by
  rw [merge_eq]
  split
  · rename_i unknown
    simp [head?, Option.isNone_iff_eq_none.1 unknown]
  split
  · simp_all
  rename_i different
  split
  · simp_all
  · simp_all
  · rename_i theirs ours htheirs hours
    simp only [htheirs, hours, Option.some.injEq, exists_eq_left', ne_eq, different, not_false_eq_true, true_and,
      exists_and_left]
    split
    · rename_i merged
      simp [merged_iff.1 merged]
    · rename_i apart
      simp [merged_iff.not.1 apart]

/-- What is merged already is refused. -/
theorem merge_of_reaches {theirs ours : String} (htheirs : h.head? name = some theirs)
    (hours : h.currentHead? = some ours) (different : name ≠ h.current) (merged : h.Reaches ours theirs)
    (details : Details) : h.merge name details = .error (.alreadyMerged h.current) := by
  obtain ⟨b, found, -⟩ := Option.bind_eq_some_iff.1 htheirs
  rw [merge_eq, found, if_neg (by simp), if_neg different, htheirs, hours]
  exact if_pos (merged_iff.2 merged)

theorem Sound.merged (hs : h.Sound) {details : Details} (e : h.merge name details = .ok (id, h')) :
    ∃ theirs ours, h.head? name = some theirs ∧ h.currentHead? = some ours ∧ name ≠ h.current ∧
      ¬h.Reaches ours theirs ∧ Pushed h [ours, theirs] id h' := by
  obtain ⟨theirs, ours, htheirs, hours, different, apart, made⟩ := merge_eq_ok.1 e
  refine ⟨theirs, ours, htheirs, hours, different, apart, hs.pushed ?_ made⟩
  simp [hs.hasCommit_of_head htheirs, hs.hasCommit_of_head hours]

/-- A branch can be merged if it is there, is not the one that is checked out, both have a head, its head is neither
the other one nor an ancestor of it, and the id that is asked for is free. -/
theorem exists_merge_eq_ok (h : History) (name : String) (details : Details) :
    (∃ made, h.merge name details = .ok made) ↔
      (h.branch? name).isSome = true ∧ name ≠ h.current ∧
        ∃ theirs ours, h.head? name = some theirs ∧ h.currentHead? = some ours ∧
          theirs ≠ ours ∧ ¬Relation.TransGen h.HasParent ours theirs ∧
          ∀ given ∈ details.id, h.hasCommit given = false := by
  constructor
  · rintro ⟨made, e⟩
    obtain ⟨theirs, ours, htheirs, hours, different, apart, pushed⟩ := merge_eq_ok.1 e
    obtain ⟨b, found, -⟩ := Option.bind_eq_some_iff.1 htheirs
    obtain ⟨unequal, unreached⟩ := not_reaches_iff.1 apart
    exact ⟨by simp [found], different, theirs, ours, htheirs, hours, unequal, unreached,
      (exists_push_eq_ok ..).1 ⟨made, pushed⟩⟩
  · rintro ⟨-, different, theirs, ours, htheirs, hours, unequal, unreached, free⟩
    obtain ⟨made, pushed⟩ := (exists_push_eq_ok ..).2 free
    have apart := not_reaches_iff.2 ⟨unequal, unreached⟩
    exact ⟨made, merge_eq_ok.2 ⟨theirs, ours, htheirs, hours, different, apart, pushed⟩⟩

/-- A branch that has just been merged is refused because it is merged already. -/
theorem Sound.merge_again (hs : h.Sound) {details : Details} (e : h.merge name details = .ok (id, h'))
    (again : Details) : h'.merge name again = .error (.alreadyMerged h'.current) := by
  obtain ⟨theirs, ours, htheirs, -, different, -, pushed⟩ := hs.merged e
  have head : h'.currentHead? = some id := by rw [currentHead?, pushed.current, pushed.head]
  refine merge_of_reaches ((pushed.head?_other different).trans htheirs) head ?_ ?_ again
  · rwa [pushed.current]
  · exact (pushed.above theirs).2 (.inr ⟨theirs, by simp, .refl⟩)

/-- Whatever operations made a history, a branch is merged exactly if it is there, is not the one that is checked
out, both have a head, its head is neither the other one nor an ancestor of it, and the id that is asked for is
free. Then the new head reaches itself and what either of the two heads reached, all other branches are as they
were, and to merge the branch once more is refused because it is merged already. -/
theorem merge_run (d : Direction) (steps : List Statement) (name : String) (details : Details) :
    let h := run { direction := d } steps
    ((∃ made, h.merge name details = .ok made) ↔
      (h.branch? name).isSome = true ∧ name ≠ h.current ∧
        ∃ theirs ours, h.head? name = some theirs ∧ h.currentHead? = some ours ∧
          theirs ≠ ours ∧ ¬Relation.TransGen h.HasParent ours theirs ∧
          ∀ given ∈ details.id, h.hasCommit given = false) ∧
      ∀ id h', h.merge name details = .ok (id, h') →
        ∃ theirs ours, h.head? name = some theirs ∧ h.currentHead? = some ours ∧
          h.hasCommit id = false ∧ h'.currentHead? = some id ∧
          (∀ x, h'.Reaches id x ↔ x = id ∨ h.Reaches ours x ∨ h.Reaches theirs x) ∧
          (∀ other, other ≠ h.current → h'.branch? other = h.branch? other) ∧
          ∀ again, h'.merge name again = .error (.alreadyMerged h'.current) := by
  intro h
  have hs : h.Sound := (sound_new d).run steps
  refine ⟨exists_merge_eq_ok h name details, fun id h' e => ?_⟩
  obtain ⟨theirs, ours, htheirs, hours, -, -, pushed⟩ := hs.merged e
  have head : h'.currentHead? = some id := by rw [currentHead?, pushed.current, pushed.head]
  have reaches (x : String) : h'.Reaches id x ↔ x = id ∨ h.Reaches ours x ∨ h.Reaches theirs x := by
    simpa using pushed.above x
  exact ⟨theirs, ours, htheirs, hours, pushed.fresh, head, reaches, pushed.others, hs.merge_again e⟩

end History

end DiagramText.Git
