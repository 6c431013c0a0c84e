import DiagramText.Proofs.Git.History
import DiagramText.Proofs.Naming

/-!
# Ids of commits

A commit without an id gets a free one, so it never repeats one before it (`nodup_generated_slots`). A
later commit may still give the id that it got, and is refused then; no document is refused for a repeated
id unless its ids do repeat, and the commits of a history have all of them (`made_of_read`).
-/

namespace DiagramText.Git

open Naming

/-- A history whose commits have these names. -/
def historyOf (names : List Name) : History :=
  { commits := names.map fun name => { (default : Commit) with id := name.id } }

/-- The place for the id of a commit; one without an id gets one that is free. -/
def commitSlot (given? : Option String) : Slot := .of given? fun before => (historyOf before).freeId

/-- The place for the id of the commit that a statement makes, if it makes one. -/
def slot? : Statement → Option Slot
  | .commit details | .merge _ details => some (commitSlot details.id)
  | .cherryPick .. => some (commitSlot none)
  | .caption _ | .branch .. | .checkout _ => none

/-- The commits of a document. -/
def slots (statements : List Statement) : List Slot := statements.filterMap slot?

theorem ids_historyOf (names : List Name) : (historyOf names).commits.map Commit.id = ids names := by
  simp [historyOf, ids]

theorem hasCommit_iff_mem {h : History} {id : String} :
    h.hasCommit id = true ↔ id ∈ h.commits.map Commit.id := by
  rw [History.hasCommit_iff, List.mem_map]

/-- Which id is free depends on the ids of the commits only. -/
theorem freeId_congr {h h' : History} (same : h.commits.map Commit.id = h'.commits.map Commit.id) :
    h.freeId = h'.freeId := by
  have length : h.commits.length = h'.commits.length := by simpa using congrArg List.length same
  have known : h.hasCommit = h'.hasCommit := by
    funext id
    rw [Bool.eq_iff_iff, hasCommit_iff_mem, hasCommit_iff_mem, same]
  simp only [History.freeId, length, known]

theorem nodup_generated_slots (statements : List Statement) :
    (generated (nameAll (slots statements))).Nodup := by
  refine nodup_generated_of_fresh fun make hmake before => ?_
  obtain ⟨statement, -, hslot⟩ := List.mem_filterMap.1 hmake
  have free : (historyOf before).freeId ∉ ids before := by
    obtain ⟨-, -, free, -⟩ := History.exists_freeId (historyOf before)
    rwa [Bool.eq_false_iff, Ne, hasCommit_iff_mem, ids_historyOf] at free
  cases statement with
  | commit | merge | cherryPick =>
    obtain ⟨-, rfl⟩ := Slot.of_eq_made (Option.some.inj hslot)
    exact free
  | _ => cases hslot

section

variable {h h' : History} {before : List Name}

theorem id_of_commitSlot (same : h.commits.map Commit.id = ids before) (given? : Option String) :
    (nameIn before (commitSlot given?)).id = given?.getD h.freeId := by
  cases given? with
  | none => exact freeId_congr ((ids_historyOf before).trans same.symm)
  | some id => rfl

/-- A commit adds its name to those of the history, and is only refused if that is there. -/
theorem ids_push (same : h.commits.map Commit.id = ids before) (details : Details) (type : CommitType)
    (parents : List String) :
    match h.push details type parents with
    | .ok (_, h') => h'.commits.map Commit.id = ids (extend before (commitSlot details.id))
    | .error _ => (nameIn before (commitSlot details.id)).id ∈ ids before := by
  have named := id_of_commitSlot same details.id
  cases hpush : h.push details type parents with
  | ok made =>
    obtain ⟨id, next⟩ := made
    obtain ⟨-, rfl, rfl⟩ := History.push_eq_ok.1 hpush
    simp [History.record, History.moveHead, extend, same, Naming.ids, named]
  | error refusal =>
    rw [History.push_eq] at hpush
    split at hpush
    · rename_i id taken
      obtain ⟨given, known⟩ := Option.filter_eq_some_iff.1 taken
      rw [given] at named ⊢
      rw [named, ← same]
      exact hasCommit_iff_mem.1 known
    · cases hpush

/-- A statement pushes a commit in its place for one, if it does not fail before. -/
theorem apply_eq_push {statement : Statement} {slot : Slot} (hslot : slot? statement = some slot) :
    (∃ details type parents, slot = commitSlot details.id ∧
      h.apply statement = (h.push details type parents).map (·.2)) ∨
    ∃ refusal, h.apply statement = .error refusal ∧ ∀ id, refusal ≠ .duplicateCommit id := by
  cases statement with
  | commit details =>
    cases hslot
    exact .inl ⟨details, _, _, rfl, History.apply_eq h _⟩
  | merge name details =>
    cases hslot
    simp only [History.apply_eq, History.merge_eq]
    split
    · exact .inr ⟨_, rfl, nofun⟩
    · split
      · exact .inr ⟨_, rfl, nofun⟩
      · split
        · exact .inr ⟨_, rfl, nofun⟩
        · exact .inr ⟨_, rfl, nofun⟩
        · split
          · exact .inr ⟨_, rfl, nofun⟩
          · exact .inl ⟨details, _, _, rfl, rfl⟩
  | cherryPick id parent tags =>
    cases hslot
    simp only [History.apply_eq, History.cherryPick_eq]
    split
    · exact .inr ⟨_, rfl, nofun⟩
    · split
      · exact .inr ⟨_, rfl, nofun⟩
      · split
        · exact .inr ⟨_, rfl, nofun⟩
        · exact .inr ⟨_, rfl, nofun⟩
        · exact .inl ⟨_, _, _, rfl, rfl⟩
  | caption | branch | checkout => cases hslot

/-- A statement without a place for a commit leaves the commits as they are. -/
theorem commits_of_apply {statement : Statement} (hslot : slot? statement = none) :
    (∃ h', h.apply statement = .ok h' ∧ h'.commits = h.commits) ∨
    ∃ refusal, h.apply statement = .error refusal ∧ ∀ id, refusal ≠ .duplicateCommit id := by
  cases statement with
  | caption caption => exact .inl ⟨_, rfl, rfl⟩
  | branch name order =>
    simp only [History.apply_eq, History.openBranch_eq]
    split
    · exact .inr ⟨_, rfl, nofun⟩
    · exact .inl ⟨_, rfl, rfl⟩
  | checkout name =>
    simp only [History.apply_eq, History.checkout_eq]
    split
    · exact .inl ⟨_, rfl, rfl⟩
    · exact .inr ⟨_, rfl, nofun⟩
  | commit | merge | cherryPick => cases hslot

/-- Statements add their names to those of the history, unless they are found to repeat one. -/
theorem ids_of_statements {placed : List (Nat × Statement)}
    (same : h.commits.map Commit.id = ids before) :
    (∀ h', placed.foldlM History.applyAt h = .ok h' →
      h'.commits.map Commit.id = ids ((slots (placed.map (·.2))).foldl extend before)) ∧
    ∀ offset id, placed.foldlM History.applyAt h = .error ⟨offset, .complaint (.refused (.duplicateCommit id))⟩ →
      ¬ (ids ((slots (placed.map (·.2))).foldl extend before)).Nodup := by
  induction placed generalizing h before with
  | nil => exact ⟨fun _ e => by cases e; exact same, fun _ _ e => by cases e⟩
  | cons first placed ih =>
    obtain ⟨start, statement⟩ := first
    rw [List.foldlM_cons, List.map_cons, slots, List.filterMap_cons, ← slots]
    have refused {refusal : Refusal} (hne : ∀ id, refusal ≠ .duplicateCommit id)
        (e : h.apply statement = .error refusal) (after : List Name) :
        (∀ h', (h.applyAt (start, statement) >>= fun h => placed.foldlM History.applyAt h) = .ok h' →
          h'.commits.map Commit.id = ids after) ∧
        ∀ offset id, (h.applyAt (start, statement) >>= fun h => placed.foldlM History.applyAt h) =
          .error ⟨offset, .complaint (.refused (.duplicateCommit id))⟩ → ¬ (ids after).Nodup := by
      simp only [History.applyAt, e]
      exact ⟨fun _ found => (by cases found), fun offset id found => absurd (by cases found; rfl) (hne id)⟩
    cases hslot : slot? statement with
    | none =>
      obtain ⟨next, e, commits⟩ | ⟨refusal, e, hne⟩ := commits_of_apply (h := h) hslot
      · simp only [History.applyAt, e]
        exact ih (commits ▸ same)
      · exact refused hne e _
    | some slot =>
      obtain ⟨details, type, parents, rfl, e⟩ | ⟨refusal, e, hne⟩ := apply_eq_push (h := h) hslot
      · have pushed := ids_push same details type parents
        cases hpush : h.push details type parents with
        | ok made =>
          rw [hpush] at e pushed
          simp only [History.applyAt, e, Except.map]
          exact ih pushed
        | error refusal =>
          rw [hpush] at e pushed
          simp only [History.applyAt, e, Except.map]
          exact ⟨fun _ found => (by cases found), fun _ _ _ => not_nodup_of_taken pushed⟩
      · exact refused hne e _

end

/-- The history of a document has all names, and a document without one is only faulted for a repeated
name if the names do repeat. -/
theorem made_of_read {t : Tree} {placed : List (Nat × Statement)}
    (hplaced : statements.readPlaced (t.list "statements") = .ok placed) :
    (∀ h, read t = .ok h → h.commits.map Commit.id = ids (nameAll (slots (placed.map (·.2))))) ∧
    ∀ offset id, read t = .error ⟨offset, .complaint (.refused (.duplicateCommit id))⟩ →
      ¬ (ids (nameAll (slots (placed.map (·.2))))).Nodup := by
  rw [read, hplaced]
  cases hdirection : direction t with
  | error fault =>
    refine ⟨fun _ e => (by cases e), fun offset id e => ?_⟩
    cases e
    unfold direction at hdirection
    split at hdirection
    · cases hdirection
    · split at hdirection <;> cases hdirection
  | ok d => exact @ids_of_statements { direction := d } [] _ rfl

/-- No commit of a history is reported to have the id of another. -/
theorem duplicate_not_mem_issues {h : History} (sound : h.Sound) (id : String) :
    .duplicateId id ∉ h.issues := by
  by_cases empty : h.commits = []
  · simp [History.issues, empty, History.commitIssues, Issue.ofCount]
  · rw [sound.issues_eq_nil_iff.2 empty]
    exact List.not_mem_nil

end DiagramText.Git
