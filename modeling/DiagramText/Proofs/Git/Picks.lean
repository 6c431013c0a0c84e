import DiagramText.Proofs.Git.Merges

/-!
# Commits picked from other branches

A commit is refused as being on the branch that is checked out if it was made there. Every such commit is on the
branch (`Owned.run`), but commits that were made elsewhere may be on it as well. They get there in two ways: the
branch is opened at a commit, or another branch is merged into it (`Mingles`). What an operation may do to the
commits and the heads of a sound history is listed once (`Effect`), and so there is no third way
(`strayOn_run`). A commit that is on the branch can be picked exactly if there is one that got there so
(`cherryPick_run_iff`).
-/

namespace DiagramText.Git

namespace History

variable {h h' : History} {name id x : String}

/-- Every commit is on the branch on which it was made. -/
def Owned (h : History) : Prop := ∀ c ∈ h.commits, h.OnBranch c.branch c.id

theorem owned_new (d : Direction) : Owned { direction := d } := by
  intro c hc
  cases hc

/-- Whether a commit that was made elsewhere is on a branch. -/
def StrayOn (h : History) (name : String) : Prop := ∃ c ∈ h.commits, c.branch ≠ name ∧ h.OnBranch name c.id

/-- Whether a statement brings commits that were made elsewhere to a branch: it opens the branch at a commit, or
merges another branch into it. -/
def Mingles (h : History) (name : String) : Statement → Prop
  | .branch opened _ => opened = name ∧ h.branch? name = none ∧ h.currentHead?.isSome = true
  | .merge other details => h.current = name ∧ ∃ made, h.merge other details = .ok made
  | _ => False

/-- Whether any of the statements that are tried one after the other brings such commits to a branch. -/
def Mingled (h : History) (name : String) : List Statement → Prop
  | [] => False
  | s :: rest => h.Mingles name s ∨ (h.attempt s).Mingled name rest

/-! ## Effects -/

/-- What a statement that is tried may do to commits and heads. -/
inductive Effect (h : History) : Statement → History → Prop
  | still {s h'} (quiet : ∀ name, ¬h.Mingles name s) (commits : h'.commits = h.commits)
    (branches : h'.branches = h.branches) : Effect h s h'
  | opened {name order h'} (new : h.branch? name = none) (commits : h'.commits = h.commits)
    (branches : h'.branches = h.branches ++ [{ name, order, head := h.currentHead? }]) :
    Effect h (.branch name order) h'
  | pushed {s id h'} (quiet : ∀ name, ¬h.Mingles name s) (pushed : Pushed h h.currentHead?.toList id h') :
    Effect h s h'
  | merged {name details theirs ours id h'} (htheirs : h.head? name = some theirs)
    (hours : h.currentHead? = some ours) (apart : ¬h.Reaches ours theirs)
    (done : h.merge name details = .ok (id, h')) (pushed : Pushed h [ours, theirs] id h') :
    Effect h (.merge name details) h'

/-- A commit is picked if it was made on another branch, the parent that is named is one of its parents, and
there is a commit to put it on. -/
theorem cherryPick_eq_ok {picked : String} {parent : Option String} {tags : List String}
    {made : String × History} :
    h.cherryPick picked parent tags = .ok made ↔
      ∃ source ours, h.commit? picked = some source ∧ source.branch ≠ h.current ∧
        (∀ p ∈ parent, p ∈ source.parents) ∧ h.currentHead? = some ours ∧
        h.push { message := some ("cherry-pick: " ++ picked), tags } .cherryPick [ours] = .ok made := by
  rw [cherryPick_eq]
  split
  · simp_all
  rename_i source found
  simp only [found, Option.some.injEq, exists_and_left, exists_eq_left']
  split
  · simp_all
  rename_i different
  split
  · rename_i stranger hstranger
    obtain ⟨named, absent⟩ := Option.filter_eq_some_iff.1 hstranger
    simp_all
  · simp_all
  · rename_i ours hnone hours
    have known : ∀ p ∈ parent, p ∈ source.parents := by
      intro p hp
      simpa using Option.filter_eq_none_iff.1 hnone p hp
    simp only [hours, Option.some.injEq, exists_eq_left', ne_eq, different, not_false_eq_true, true_and]
    exact (and_iff_right known).symm

theorem Sound.effect_apply (hs : h.Sound) {s : Statement} (e : h.apply s = .ok h') : Effect h s h' := by
  rw [apply_eq] at e
  have onHead : ∀ p ∈ h.currentHead?.toList, h.hasCommit p = true := fun p hp =>
    hs.hasCommit_of_head (Option.mem_toList.1 hp)
  cases s with
  | caption c =>
    cases e
    exact .still (fun _ mingles => mingles) rfl rfl
  | commit details =>
    obtain ⟨⟨id, _⟩, made, rfl⟩ := Reading.map_eq_ok.1 e
    exact .pushed (fun _ mingles => mingles) (hs.pushed onHead made)
  | branch name order =>
    dsimp only at e
    rw [openBranch_eq] at e
    split at e
    · cases e
    · rename_i new
      cases e
      exact .opened (by simpa using new) rfl rfl
  | checkout name =>
    dsimp only at e
    rw [checkout_eq] at e
    split at e
    · cases e
      exact .still (fun _ mingles => mingles) rfl rfl
    · cases e
  | merge name details =>
    obtain ⟨⟨id, _⟩, made, rfl⟩ := Reading.map_eq_ok.1 e
    obtain ⟨theirs, ours, htheirs, hours, -, apart, pushed⟩ := hs.merged made
    exact .merged htheirs hours apart made pushed
  | cherryPick picked parent tags =>
    obtain ⟨⟨id, _⟩, made, rfl⟩ := Reading.map_eq_ok.1 e
    obtain ⟨source, ours, -, -, -, hours, made⟩ := cherryPick_eq_ok.1 made
    have onTop : h.currentHead?.toList = [ours] := by rw [hours, Option.toList_some]
    exact .pushed (fun _ mingles => mingles) (hs.pushed onHead (onTop ▸ made))

theorem Sound.effect (hs : h.Sound) (s : Statement) : Effect h s (h.attempt s) := by
  rw [attempt_eq]
  split
  · exact hs.effect_apply ‹_›
  · rename_i refusal refused
    refine .still (fun name => ?_) rfl rfl
    cases s with
    | branch opened order =>
      rintro ⟨rfl, new, -⟩
      simp [History.apply_eq, History.openBranch_eq, new] at refused
    | merge other details =>
      rintro ⟨-, made, done⟩
      simp [History.apply_eq, done, Except.map] at refused
    | _ => exact fun mingles => mingles

/-! ## Branches after a statement -/

/-- What is on a branch depends on the commits and on its head. -/
theorem onBranch_congr (commits : h'.commits = h.commits) (head : h'.head? name = h.head? name) :
    h'.OnBranch name x ↔ h.OnBranch name x := by
  have links : h'.HasParent = h.HasParent := by
    funext id parent
    rw [HasParent, HasParent, parents, parents, commit?, commit?, commits]
  simp only [OnBranch, Reaches, head, links]

theorem branch?_of_opened {b : Branch} (new : h.branch? b.name = none)
    (branches : h'.branches = h.branches ++ [b]) (other : String) :
    h'.branch? other = if other = b.name then some b else h.branch? other := by
  rw [branch?] at new
  rw [branch?, branch?, branches, List.find?_append]
  split
  · rename_i same
    subst same
    simp [new]
  · rename_i ne
    simp [Ne.symm ne]

namespace Pushed

variable {parents : List String}

theorem owned (p : Pushed h parents id h') (hs : h.Sound) (o : h.Owned) (onTop : h.currentHead?.toList ⊆ parents) :
    h'.Owned := by
  obtain ⟨new, commits, hid, hbranch⟩ := p.made
  intro c hc
  rw [commits, List.mem_append, List.mem_singleton] at hc
  obtain old | rfl := hc
  · by_cases here : c.branch = h.current
    · obtain ⟨head, hhead, way⟩ := o c old
      rw [here] at hhead ⊢
      exact p.onBranch_current.2 (.inr ⟨head, onTop (Option.mem_toList.2 hhead), way⟩)
    · exact (p.onBranch_other hs here).2 (o c old)
  · rw [hbranch]
    exact p.onBranch_current.2 (.inl hid)

/-- Commits that were made elsewhere get onto a branch along the parents of a commit that is pushed there. -/
theorem strayOn_current (p : Pushed h parents id h') :
    h'.StrayOn h.current ↔ ∃ c ∈ h.commits, c.branch ≠ h.current ∧ ∃ parent ∈ parents, h.Reaches parent c.id := by
  obtain ⟨new, commits, hid, hbranch⟩ := p.made
  have old {c : Commit} (hc : c ∈ h.commits) : c.id ≠ id := by
    rintro rfl
    simpa [hasCommit_iff.2 ⟨c, hc, rfl⟩] using p.fresh
  rw [StrayOn, commits]
  constructor
  · rintro ⟨c, hc, elsewhere, onBranch⟩
    rw [List.mem_append, List.mem_singleton] at hc
    obtain hc | rfl := hc
    · exact ⟨c, hc, elsewhere, (p.onBranch_current.1 onBranch).resolve_left (old hc)⟩
    · exact absurd hbranch elsewhere
  · rintro ⟨c, hc, elsewhere, way⟩
    exact ⟨c, List.mem_append_left _ hc, elsewhere, p.onBranch_current.2 (.inr way)⟩

theorem strayOn_other (p : Pushed h parents id h') (hs : h.Sound) (ne : name ≠ h.current) :
    h'.StrayOn name ↔ h.StrayOn name := by
  obtain ⟨new, commits, hid, hbranch⟩ := p.made
  simp only [StrayOn, p.onBranch_other hs ne, commits, List.mem_append, List.mem_singleton, or_and_right, exists_or,
    exists_eq_left, or_iff_left_iff_imp]
  rintro ⟨-, head, hhead, way⟩
  have known := hs.hasCommit_of_reaches (hs.hasCommit_of_head hhead) way
  rw [hid, p.fresh] at known
  cases known

end Pushed

/-- No commit was made on a branch that is not there. -/
theorem Sound.branch_ne (hs : h.Sound) {c : Commit} (hc : c ∈ h.commits) (new : h.branch? name = none) :
    c.branch ≠ name := by
  rintro rfl
  have known := branch?_isSome_iff.2 (hs.branches_mem c hc)
  rw [new] at known
  cases known

theorem Owned.effect (o : h.Owned) (hs : h.Sound) {s : Statement} (e : Effect h s h') : h'.Owned := by
  cases e with
  | still quiet commits branches =>
    intro c hc
    refine (onBranch_congr commits ?_).2 (o c (commits ▸ hc))
    rw [head?, head?, branch?, branch?, branches]
  | opened new commits branches =>
    intro c hc
    rw [commits] at hc
    refine (onBranch_congr commits ?_).2 (o c hc)
    rw [head?, head?, branch?_of_opened new branches, if_neg (hs.branch_ne hc new)]
  | pushed quiet pushed => exact pushed.owned hs o (List.Subset.refl _)
  | merged htheirs hours apart done pushed =>
    refine pushed.owned hs o ?_
    rw [hours]
    simp

/-- After a statement commits that were made elsewhere are on a branch if they were before, or if the statement
brings some. -/
theorem strayOn_effect (hs : h.Sound) (o : h.Owned) {s : Statement} (e : Effect h s h') (name : String) :
    h'.StrayOn name ↔ h.StrayOn name ∨ h.Mingles name s := by
  cases e with
  | still quiet commits branches =>
    have head : h'.head? name = h.head? name := by rw [head?, head?, branch?, branch?, branches]
    simp only [StrayOn, commits, onBranch_congr commits head, quiet, or_false]
  | @opened opened order _ new commits branches =>
    by_cases same : opened = name
    · subst same
      have head : h'.head? opened = h.currentHead? := by
        rw [head?, branch?_of_opened new branches, if_pos rfl, Option.bind_some]
      constructor
      · rintro ⟨c, hc, elsewhere, top, htop, way⟩
        exact .inr ⟨rfl, new, by rw [← head, htop, Option.isSome_some]⟩
      · rintro (⟨c, hc, elsewhere, top, htop, way⟩ | ⟨-, -, isHead⟩)
        · rw [head?, new] at htop
          cases htop
        · obtain ⟨top, htop⟩ := Option.isSome_iff_exists.1 isHead
          obtain ⟨c, hc, rfl⟩ := hasCommit_iff.1 (hs.hasCommit_of_head htop)
          exact ⟨c, commits ▸ hc, hs.branch_ne hc new, c.id, head.trans htop, .refl⟩
    · have head : h'.head? name = h.head? name := by
        rw [head?, head?, branch?_of_opened new branches, if_neg (Ne.symm same)]
      simp only [StrayOn, commits, onBranch_congr commits head, Mingles, same, false_and, or_false]
  | pushed quiet pushed =>
    simp only [quiet, or_false]
    by_cases here : name = h.current
    · rw [here, pushed.strayOn_current]
      simp only [StrayOn, OnBranch, Option.mem_toList, currentHead?]
    · exact pushed.strayOn_other hs here
  | merged htheirs hours apart done pushed =>
    by_cases here : name = h.current
    · subst here
      refine iff_of_true (pushed.strayOn_current.2 ?_) (.inr ⟨rfl, _, done⟩)
      obtain ⟨c, hc, rfl⟩ := hasCommit_iff.1 (hs.hasCommit_of_head htheirs)
      refine ⟨c, hc, fun made => apart ?_, c.id, by simp, .refl⟩
      -- a commit that was made here can be reached from the head, so it would not be merged
      obtain ⟨head, hhead, way⟩ := o c hc
      rw [made] at hhead
      obtain rfl := Option.some.inj (hours.symm.trans hhead)
      exact way
    · simp only [pushed.strayOn_other hs here, Mingles, Ne.symm here, false_and, or_false]

theorem Owned.attempt (o : h.Owned) (hs : h.Sound) (s : Statement) : (h.attempt s).Owned := o.effect hs (hs.effect s)

theorem Owned.run (o : h.Owned) (hs : h.Sound) (steps : List Statement) : (h.run steps).Owned := by
  induction steps generalizing h with
  | nil => exact o
  | cons s steps ih => exact ih (o.attempt hs s) (hs.attempt s)

/-- Commits that were made elsewhere are on a branch if they were at the start, or if one of the statements
brought some. -/
theorem strayOn_run (hs : h.Sound) (o : h.Owned) (steps : List Statement) (name : String) :
    (h.run steps).StrayOn name ↔ h.StrayOn name ∨ h.Mingled name steps := by
  induction steps generalizing h with
  | nil => exact (or_false _).symm.to_iff
  | cons s steps ih =>
    rw [run, List.foldl_cons, ← run, ih (hs.attempt s) (o.attempt hs s), strayOn_effect hs o (hs.effect s),
      or_assoc, Mingled]

/-! ## Picking commits -/

theorem Sound.commit?_eq (hs : h.Sound) {c : Commit} (hc : c ∈ h.commits) : h.commit? c.id = some c := by
  obtain ⟨first, hfirst, found⟩ := exists_commit?_of_hasCommit (hasCommit_iff.2 ⟨c, hc, rfl⟩)
  have same : first.id = c.id := by simpa using List.find?_some found
  rwa [List.inj_on_of_nodup_map hs.ids_nodup hfirst hc same] at found

/-- There is a commit on the branch that is checked out that can be picked exactly if there is one that was made
elsewhere. -/
theorem exists_pick_onBranch_iff (hs : h.Sound) :
    (∃ picked parent tags made, h.cherryPick picked parent tags = .ok made ∧ h.OnBranch h.current picked) ↔
      h.StrayOn h.current := by
  constructor
  · rintro ⟨picked, parent, tags, made, e, onBranch⟩
    obtain ⟨source, ours, found, elsewhere, -⟩ := cherryPick_eq_ok.1 e
    have named : source.id = picked := by simpa using List.find?_some found
    exact ⟨source, List.mem_of_find?_eq_some found, elsewhere, named ▸ onBranch⟩
  · rintro ⟨c, hc, elsewhere, ours, hours, way⟩
    obtain ⟨made, done⟩ := (exists_push_eq_ok { message := some ("cherry-pick: " ++ c.id) } .cherryPick [ours]).2 nofun
    exact ⟨c.id, none, [], made, cherryPick_eq_ok.2 ⟨c, ours, hs.commit?_eq hc, elsewhere, nofun, hours, done⟩,
      ours, hours, way⟩

/-- What is refused as being on the branch that is checked out was made there. -/
theorem madeHere_of_refused {picked : String} {parent : Option String} {tags : List String}
    (refused : h.cherryPick picked parent tags = .error (.pickFromOwnBranch picked)) :
    ∃ source, h.commit? picked = some source ∧ source.branch = h.current := by
  rw [cherryPick_eq] at refused
  split at refused
  · cases refused
  rename_i source found
  split at refused
  · exact ⟨source, found, ‹_›⟩
  split at refused
  · cases refused
  · cases refused
  · rw [push_eq] at refused
    split at refused <;> cases refused

/-- Whatever operations made a history, no commit that is on the branch that is checked out can be picked if, and
only if, the branch was not opened at a commit and no branch was merged into it. What is refused leaves the
history alone, and what is refused as being on the branch is on it. -/
theorem cherryPick_run_iff (d : Direction) (steps : List Statement) :
    let h := run { direction := d } steps
    ((∀ picked parent tags made, h.cherryPick picked parent tags = .ok made → ¬h.OnBranch h.current picked) ↔
        ¬Mingled { direction := d } h.current steps) ∧
      (∀ picked parent tags refusal, h.cherryPick picked parent tags = .error refusal →
        h.attempt (.cherryPick picked parent tags) = h) ∧
      ∀ picked parent tags, h.cherryPick picked parent tags = .error (.pickFromOwnBranch picked) →
        h.OnBranch h.current picked := by
  intro h
  have new : Sound { direction := d } := sound_new d
  have hs : h.Sound := new.run steps
  have o : h.Owned := (owned_new d).run new steps
  have stray : h.StrayOn h.current ↔ Mingled { direction := d } h.current steps := by
    rw [strayOn_run new (owned_new d) steps, or_iff_right]
    rintro ⟨c, hc, -⟩
    cases hc
  refine ⟨?_, fun picked parent tags refusal refused => ?_, fun picked parent tags refused => ?_⟩
  · rw [← stray, ← exists_pick_onBranch_iff hs]
    simp only [not_exists, not_and]
  · simp only [attempt_eq, apply_eq, refused, Except.map]
  · obtain ⟨source, found, here⟩ := madeHere_of_refused refused
    have named : source.id = picked := by simpa using List.find?_some found
    rw [← here, ← named]
    exact o source (List.mem_of_find?_eq_some found)

/-- The commit at which a branch was opened is on the branch, and can be picked there. -/
theorem exists_pick_of_own_head :
    ∃ h : History, h = run {} [.commit { id := some "a" }, .branch "dev" none] ∧
      h.OnBranch h.current "a" ∧ ∃ made, h.cherryPick "a" none [] = .ok made := by
  refine ⟨_, rfl, ⟨"a", by decide, .refl⟩, ?_⟩
  exact ⟨_, rfl⟩

end History

end DiagramText.Git
