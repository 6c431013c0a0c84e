import DiagramText.Proofs.Git.Operations
import DiagramText.Proofs.Reading
import Mathlib

/-!
# Sound histories

Whatever operations are tried on a new history, refused ones included, it stays sound
(`History.sound_run`): ids of commits and names of branches are unique, a commit stands at its number,
its parents are earlier commits, and all that a branch or a commit refers to exists. Of the operations
only `push` makes a commit, so that soundness is a matter of it (`Sound.push`) and of opening a branch
(`Sound.openBranch`).

A commit that is given no id gets the first free one of a sequence that starts at the number of commits
(`exists_freeId`). The search is bounded by that number as well, which is enough because the candidates
are more than the commits.
-/

namespace DiagramText.Git

namespace History

variable {h h' : History}

/-! ## Looking up -/

theorem hasCommit_iff {id : String} : h.hasCommit id = true ↔ ∃ c ∈ h.commits, c.id = id := by
  simp [hasCommit]

theorem branch?_isSome_iff {name : String} :
    (h.branch? name).isSome = true ↔ ∃ b ∈ h.branches, b.name = name := by
  simp [branch?]

theorem head?_eq_some {name id : String} (e : h.head? name = some id) :
    ∃ b ∈ h.branches, b.head = some id := by
  obtain ⟨b, found, head⟩ := Option.bind_eq_some_iff.1 e
  exact ⟨b, List.mem_of_find?_eq_some found, head⟩

/-- The branches of a history in which a head has moved have the names that they had. -/
theorem names_moveHead (h : History) (name id : String) :
    (h.moveHead name id).branches.map Branch.name = h.branches.map Branch.name := by
  simp only [History.moveHead, List.map_map]
  refine List.map_congr_left fun b _ => ?_
  simp only [Function.comp_apply]
  split <;> rfl

theorem exists_branch_moveHead {name id other : String} :
    (∃ b ∈ (h.moveHead name id).branches, b.name = other) ↔ ∃ b ∈ h.branches, b.name = other := by
  have := names_moveHead h name id
  rw [← List.mem_map, ← List.mem_map, this]

/-! ## Ids that are made up -/

/-- The id that a commit may be given for a number. -/
def numberedId (n : Nat) : String := "c" ++ toString n

theorem numberedId_injective : Function.Injective numberedId := by
  intro m n same
  exact Nat.repr_injective (String.append_right_inj "c" |>.1 same)

/-- Among the numbered ids that the search tries, one is free. -/
theorem exists_free (h : History) :
    ∃ i ∈ List.range (h.commits.length + 1),
      h.hasCommit (numberedId (h.commits.length + i)) = false := by
  by_contra none
  let candidates :=
    (List.range (h.commits.length + 1)).map fun i => numberedId (h.commits.length + i)
  have distinct : candidates.Nodup :=
    List.nodup_range.map fun i j same => by simpa using numberedId_injective same
  have taken : candidates ⊆ h.commits.map Commit.id := by
    intro id hid
    obtain ⟨i, hi, rfl⟩ := List.mem_map.1 hid
    have found : h.hasCommit (numberedId (h.commits.length + i)) = true := by
      by_contra free
      exact none ⟨i, hi, by simpa using free⟩
    simpa using hasCommit_iff.1 found
  have few := (List.subperm_of_subset distinct taken).length_le
  simp [candidates] at few

/-- The id for the next commit is the first of the sequence that no commit has. -/
theorem exists_freeId (h : History) :
    ∃ k, h.freeId = numberedId (h.commits.length + k) ∧ h.hasCommit h.freeId = false ∧
      ∀ i < k, h.hasCommit (numberedId (h.commits.length + i)) = true := by
  let isFree := fun i => !h.hasCommit (numberedId (h.commits.length + i))
  have search : h.freeId =
      (((List.range (h.commits.length + 1)).find? isFree).map
        fun i => numberedId (h.commits.length + i)).getD "" := by
    simp only [freeId, List.find?_map]
    rfl
  obtain ⟨i, hi, free⟩ := exists_free h
  obtain ⟨k, found⟩ : ∃ k, (List.range (h.commits.length + 1)).find? isFree = some k :=
    Option.isSome_iff_exists.1 (List.find?_isSome.2 ⟨i, hi, by simpa [isFree] using free⟩)
  obtain ⟨first, -, before⟩ := List.find?_range_eq_some.1 found
  rw [found] at search
  exact ⟨k, search, by simpa [search, isFree] using first, by simpa [isFree] using before⟩

/-! ## Soundness -/

/-- What holds of every history that the operations make. -/
structure Sound (h : History) : Prop where
  ids_nodup : (h.commits.map Commit.id).Nodup
  seq_eq : ∀ i (c : Commit), h.commits[i]? = some c → c.seq = i
  parents_earlier : ∀ c ∈ h.commits, ∀ id ∈ c.parents, ∃ p ∈ h.commits, p.id = id ∧ p.seq < c.seq
  names_nodup : (h.branches.map Branch.name).Nodup
  current_mem : ∃ b ∈ h.branches, b.name = h.current
  heads_mem : ∀ b ∈ h.branches, ∀ id ∈ b.head, ∃ c ∈ h.commits, c.id = id
  branches_mem : ∀ c ∈ h.commits, ∃ b ∈ h.branches, b.name = c.branch

/-- A new history is sound. -/
theorem sound_new (d : Direction) : Sound { direction := d } where
  ids_nodup := by simp
  seq_eq := by simp
  parents_earlier := by simp
  names_nodup := by simp
  current_mem := by simp
  heads_mem := by simp
  branches_mem := by simp

namespace Sound

/-- The number of a commit is less than the number of commits. -/
theorem seq_lt (hs : h.Sound) {c : Commit} (hc : c ∈ h.commits) : c.seq < h.commits.length := by
  obtain ⟨i, hi⟩ := List.mem_iff_getElem?.1 hc
  have := (List.getElem?_eq_some_iff.1 hi).1
  have := hs.seq_eq i c hi
  omega

/-- The last commit of a branch is a commit. -/
theorem hasCommit_of_head (hs : h.Sound) {name id : String} (e : h.head? name = some id) :
    h.hasCommit id = true := by
  obtain ⟨b, hb, head⟩ := head?_eq_some e
  exact hasCommit_iff.2 (hs.heads_mem b hb id head)

/-- A history in which one more commit stands, on a branch of its own number, id and parents. -/
theorem record (hs : h.Sound) {c : Commit} (fresh : h.hasCommit c.id = false)
    (seq : c.seq = h.commits.length) (parents : ∀ id ∈ c.parents, h.hasCommit id = true)
    (branch : ∃ b ∈ h.branches, b.name = c.branch) : (h.record c).Sound where
  ids_nodup := by
    simp only [History.record, List.map_append, List.map_cons, List.map_nil]
    refine hs.ids_nodup.append (by simp) ?_
    intro id hid hc
    obtain ⟨old, hold, rfl⟩ := List.mem_map.1 hid
    have : h.hasCommit c.id = true := hasCommit_iff.2 ⟨old, hold, by simpa using hc⟩
    simp [fresh] at this
  seq_eq := by
    intro i c' hi
    rcases Nat.lt_trichotomy i h.commits.length with before | rfl | after
    · exact hs.seq_eq i c' (by simpa [History.record, List.getElem?_append_left before] using hi)
    · obtain rfl : c = c' := by simpa [History.record] using hi
      exact seq
    · have := (List.getElem?_eq_some_iff.1 hi).1
      simp [History.record] at this
      omega
  parents_earlier := by
    intro c' hc' id hid
    simp only [History.record, List.mem_append, List.mem_singleton] at hc' ⊢
    rcases hc' with old | rfl
    · obtain ⟨p, hp, same, earlier⟩ := hs.parents_earlier c' old id hid
      exact ⟨p, .inl hp, same, earlier⟩
    · obtain ⟨p, hp, same⟩ := hasCommit_iff.1 (parents id hid)
      exact ⟨p, .inl hp, same, seq ▸ hs.seq_lt hp⟩
  names_nodup := hs.names_nodup
  current_mem := hs.current_mem
  heads_mem := by
    intro b hb id hid
    obtain ⟨c', hc', same⟩ := hs.heads_mem b hb id hid
    exact ⟨c', List.mem_append_left _ hc', same⟩
  branches_mem := by
    intro c' hc'
    rcases List.mem_append.1 hc' with old | new
    · exact hs.branches_mem c' old
    · obtain rfl := List.mem_singleton.1 new
      exact branch

/-- The head of a branch may move to any commit. -/
theorem moveHead (hs : h.Sound) {name id : String} (exists_id : h.hasCommit id = true) :
    (h.moveHead name id).Sound where
  ids_nodup := hs.ids_nodup
  seq_eq := hs.seq_eq
  parents_earlier := hs.parents_earlier
  names_nodup := by simpa only [names_moveHead] using hs.names_nodup
  current_mem := exists_branch_moveHead.2 hs.current_mem
  heads_mem := by
    intro b hb id' hid
    obtain ⟨old, hold, rfl⟩ := List.mem_map.1 hb
    split at hid
    · obtain rfl : id = id' := by simpa using hid
      exact hasCommit_iff.1 exists_id
    · exact hs.heads_mem old hold id' hid
  branches_mem c hc := exists_branch_moveHead.2 (hs.branches_mem c hc)

end Sound

/-! ## Operations -/

/-- What a new commit is when it is made: its id is the one that is asked for, else a free one. -/
theorem push_eq_ok {details : Details} {type : CommitType} {parents : List String} {id : String} :
    h.push details type parents = .ok (id, h') ↔
      h.hasCommit id = false ∧ id = details.id.getD h.freeId ∧
        h' = (h.record
          { id, message := details.message, type := details.type.getD type, tags := details.tags,
            branch := h.current, parents, seq := h.commits.length }).moveHead h.current id := by
  rw [push_eq]
  cases given : details.id with
  | none =>
    obtain ⟨-, -, free, -⟩ := exists_freeId h
    simp only [Option.filter_none, Option.getD_none, Except.ok.injEq, Prod.mk.injEq]
    constructor
    · rintro ⟨rfl, rfl⟩
      exact ⟨free, rfl, rfl⟩
    · rintro ⟨-, rfl, rfl⟩
      exact ⟨rfl, rfl⟩
  | some wanted =>
    simp only [Option.getD_some]
    cases taken : h.hasCommit wanted with
    | false =>
      simp only [Option.filter_some, taken, Bool.false_eq_true, if_false, Except.ok.injEq,
        Prod.mk.injEq]
      constructor
      · rintro ⟨rfl, rfl⟩
        exact ⟨taken, rfl, rfl⟩
      · rintro ⟨-, rfl, rfl⟩
        exact ⟨rfl, rfl⟩
    | true =>
      simp only [Option.filter_some, taken, if_true, reduceCtorEq, false_iff, not_and]
      rintro free rfl
      simp [taken] at free

/-- A commit that is given no id is never refused. -/
theorem exists_commit_eq_ok (h : History) {details : Details} (noId : details.id = none) :
    ∃ h', h.commit details = .ok (h.freeId, h') := by
  obtain ⟨-, -, free, -⟩ := exists_freeId h
  exact ⟨_, push_eq_ok.2 ⟨free, by simp [noId], rfl⟩⟩

namespace Sound

/-- A commit may be made on commits that are there. -/
theorem push (hs : h.Sound) {details : Details} {type : CommitType} {parents : List String}
    {id : String} (known : ∀ p ∈ parents, h.hasCommit p = true)
    (e : h.push details type parents = .ok (id, h')) : h'.Sound := by
  obtain ⟨fresh, -, rfl⟩ := push_eq_ok.1 e
  refine moveHead (record hs fresh rfl known hs.current_mem) ?_
  simp [hasCommit_iff, History.record]

theorem commit (hs : h.Sound) {details : Details} {id : String}
    (e : h.commit details = .ok (id, h')) : h'.Sound := by
  rw [commit_eq] at e
  exact hs.push (fun _ hp => hs.hasCommit_of_head (Option.mem_toList.1 hp)) e

/-- A branch may be opened under a new name. -/
theorem openBranch (hs : h.Sound) {name : String} {order : Option Int}
    (e : h.openBranch name order = .ok h') : h'.Sound := by
  rw [openBranch_eq] at e
  split at e
  · cases e
  · rename_i new
    cases e
    refine ⟨hs.ids_nodup, hs.seq_eq, hs.parents_earlier, ?_, ?_, ?_, ?_⟩
    · simp only [List.map_append, List.map_cons, List.map_nil]
      refine hs.names_nodup.append (by simp) ?_
      intro other hother hname
      obtain ⟨b, hb, rfl⟩ := List.mem_map.1 hother
      exact new (branch?_isSome_iff.2 ⟨b, hb, by simpa using hname⟩)
    · exact ⟨_, List.mem_append_right _ (List.mem_singleton.2 rfl), rfl⟩
    · intro b hb id hid
      rcases List.mem_append.1 hb with old | opened
      · exact hs.heads_mem b old id hid
      · obtain rfl := List.mem_singleton.1 opened
        exact hasCommit_iff.1 (hs.hasCommit_of_head hid)
    · intro c hc
      obtain ⟨b, hb, same⟩ := hs.branches_mem c hc
      exact ⟨b, List.mem_append_left _ hb, same⟩

theorem checkout (hs : h.Sound) {name : String} (e : h.checkout name = .ok h') : h'.Sound := by
  rw [checkout_eq] at e
  split at e
  · rename_i known
    cases e
    exact { hs with current_mem := branch?_isSome_iff.1 known }
  · cases e

theorem merge (hs : h.Sound) {name : String} {details : Details} {id : String}
    (e : h.merge name details = .ok (id, h')) : h'.Sound := by
  rw [merge_eq] at e
  split at e
  · cases e
  split at e
  · cases e
  split at e
  · cases e
  · cases e
  · rename_i theirs ours hTheirs hOurs
    split at e
    · cases e
    · refine hs.push ?_ e
      simp [hs.hasCommit_of_head hTheirs, hs.hasCommit_of_head hOurs]

theorem cherryPick (hs : h.Sound) {picked : String} {parent : Option String} {tags : List String}
    {id : String} (e : h.cherryPick picked parent tags = .ok (id, h')) : h'.Sound := by
  rw [cherryPick_eq] at e
  split at e
  · cases e
  split at e
  · cases e
  split at e
  · cases e
  · cases e
  · rename_i ours hOurs
    exact hs.push (by simp [hs.hasCommit_of_head hOurs]) e

/-- Every statement that is carried out keeps a history sound. -/
theorem apply (hs : h.Sound) {s : Statement} (e : h.apply s = .ok h') : h'.Sound := by
  rw [apply_eq] at e
  cases s with
  | caption c =>
    cases e
    exact { hs with }
  | commit details =>
    obtain ⟨⟨id, _⟩, made, rfl⟩ := Reading.map_eq_ok.1 e
    exact hs.commit made
  | branch name order => exact hs.openBranch e
  | checkout name => exact hs.checkout e
  | merge name details =>
    obtain ⟨⟨id, _⟩, made, rfl⟩ := Reading.map_eq_ok.1 e
    exact hs.merge made
  | cherryPick picked parent tags =>
    obtain ⟨⟨id, _⟩, made, rfl⟩ := Reading.map_eq_ok.1 e
    exact hs.cherryPick made

/-! ## Issues -/

theorem commitIssues_eq_nil (hs : h.Sound) {seen : List String} {cs : List Commit}
    (known : ∀ c ∈ cs, c ∈ h.commits) (distinct : (cs.map Commit.id).Nodup)
    (unseen : ∀ c ∈ cs, c.id ∉ seen) : h.commitIssues seen cs = [] := by
  induction cs generalizing seen with
  | nil => rfl
  | cons c cs ih =>
    simp only [List.forall_mem_cons] at known unseen
    simp only [List.map_cons, List.nodup_cons] at distinct
    have parents : c.parents.filter (!h.hasCommit ·) = [] := by
      refine List.filter_eq_nil_iff.2 fun id hid => ?_
      obtain ⟨p, hp, same, -⟩ := hs.parents_earlier c known.1 id hid
      simp [hasCommit_iff.2 ⟨p, hp, same⟩]
    have branch := branch?_isSome_iff.2 (hs.branches_mem c known.1)
    have rest : h.commitIssues (c.id :: seen) cs = [] := by
      refine ih known.2 distinct.2 fun c' hc' => ?_
      rw [List.mem_cons, not_or]
      exact ⟨fun same => distinct.1 (List.mem_map.2 ⟨c', hc', same⟩), unseen.2 c' hc'⟩
    simp [commitIssues, parents, rest, unseen.1, ← Option.not_isSome, branch]

/-- Nothing is wrong with a sound history, unless it is empty. -/
theorem issues_eq_nil_iff (hs : h.Sound) : h.issues = [] ↔ h.commits ≠ [] := by
  have commits : h.commitIssues [] h.commits = [] :=
    hs.commitIssues_eq_nil (fun _ hc => hc) hs.ids_nodup (by simp)
  have heads : (h.branches.filterMap fun b =>
      (b.head.filter (!h.hasCommit ·)).map (Issue.danglingReference "branch head")) = [] := by
    refine List.filterMap_eq_nil_iff.2 fun b hb => ?_
    simp only [Option.map_eq_none_iff, Option.filter_eq_none_iff]
    intro id hid
    simp [hasCommit_iff.2 (hs.heads_mem b hb id hid)]
  simp [issues, commits, heads, Issue.ofCount]

end Sound

/-! ## Runs -/

/-- The history after operations are tried one after the other. -/
def run (h : History) (steps : List Statement) : History := steps.foldl attempt h

theorem Sound.attempt (hs : h.Sound) (s : Statement) : (h.attempt s).Sound := by
  rw [attempt_eq]
  split
  · exact hs.apply ‹_›
  · exact hs

theorem Sound.run (hs : h.Sound) (steps : List Statement) : (h.run steps).Sound := by
  induction steps generalizing h with
  | nil => exact hs
  | cons s steps ih => exact ih (hs.attempt s)

/-- Whatever is tried on a new history, it stays sound, nothing is wrong with it once it has a commit,
what is refused leaves it alone, and a commit without an id is made under the first free numbered one. -/
theorem sound_run (d : Direction) (steps : List Statement) :
    let h := run { direction := d } steps
    h.Sound ∧ (h.issues = [] ↔ h.commits ≠ []) ∧
      (∀ s r, h.apply s = .error r → h.attempt s = h) ∧
      ∀ details : Details, details.id = none →
        ∃ k h', h.commit details = .ok (numberedId (h.commits.length + k), h') ∧
          h.hasCommit (numberedId (h.commits.length + k)) = false ∧
          ∀ i < k, h.hasCommit (numberedId (h.commits.length + i)) = true := by
  intro h
  have hs : h.Sound := (sound_new d).run steps
  refine ⟨hs, hs.issues_eq_nil_iff, fun s r refused => by simp [attempt_eq, refused], ?_⟩
  intro details noId
  obtain ⟨h', made⟩ := exists_commit_eq_ok h noId
  obtain ⟨k, name, free, before⟩ := exists_freeId h
  exact ⟨k, h', name ▸ made, name ▸ free, before⟩

end History

/-- The history of a document is sound. -/
theorem sound_of_read {t : Tree} {h : History} (e : read t = .ok h) : h.Sound := by
  simp only [read, Reading.bind_eq_ok] at e
  obtain ⟨d, -, steps, -, e⟩ := e
  refine Reading.foldlM_invariant ?_ (History.sound_new d) e
  intro before (offset, statement) after hs step
  simp only [History.applyAt] at step
  split at step
  · rename_i carried
    cases step
    exact hs.apply carried
  · cases step

end DiagramText.Git
