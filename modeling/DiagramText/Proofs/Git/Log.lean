import DiagramText.Proofs.Git.History

/-!
# Logs of branches

Commits that are recorded as they are may have any parents, missing ones and later ones among them, and their
ids may be taken. The log of a branch meets none of these commits: the head of a branch is a commit that an
operation made, under an id that was free, and so is its first parent, which was the head of a branch before.

`Trail h next places` says that the first parents from an id on lie at these places, one before the other, down
to a commit without a first parent. A recorded commit stands behind all trails and leaves them as they are
(`Trail.record`), and an operation that makes a commit puts it on top of the trail of a head
(`Anchored.push`). So every branch of a history has a trail whatever calls made it (`anchored_afterAll`), and
its log goes down the trail to its end (`log_afterAll`).
-/

namespace DiagramText.Git

namespace History

variable {h h' : History} {next : Option String} {places : List Nat}

/-! ## Walks along first parents -/

/-- From an id on along first parents, without a bound, these are the commits up to the first id that no commit
has. -/
inductive Walks (h : History) : Option String → List Commit → Prop
  | stop {id : Option String} (last : id.bind h.commit? = none) : Walks h id []
  | step {id : Option String} {c : Commit} {log : List Commit} (found : id.bind h.commit? = some c)
    (more : Walks h c.parents.head? log) : Walks h id (c :: log)

/-- The first commit with an id stands at a place. -/
def StandsAt (h : History) (id : String) (place : Nat) (c : Commit) : Prop :=
  h.commits.findIdx? (·.id == id) = some place ∧ h.commits[place]? = some c

/-- From an id on the first parents lie at these places, each before the last one, and end with a commit that
has no first parent. -/
inductive Trail (h : History) : Option String → List Nat → Prop
  | nil : Trail h none []
  | cons {id place c places} (here : h.StandsAt id place c) (earlier : ∀ other ∈ places.head?, other < place)
    (more : Trail h c.parents.head? places) : Trail h (some id) (place :: places)

theorem StandsAt.commit?_eq {id : String} {place : Nat} {c : Commit} (here : h.StandsAt id place c) :
    h.commit? id = some c := by
  obtain ⟨first, stands⟩ := here
  obtain ⟨lt, found, before⟩ := List.findIdx?_eq_some_iff_getElem.1 first
  rw [List.getElem?_eq_getElem lt, Option.some.injEq] at stands
  exact List.find?_eq_some_iff_getElem.2 ⟨stands ▸ found, place, lt, stands, fun j hj => by simpa using before j hj⟩

theorem StandsAt.id_eq {id : String} {place : Nat} {c : Commit} (here : h.StandsAt id place c) : c.id = id := by
  simpa using List.find?_some here.commit?_eq

theorem StandsAt.lt {id : String} {place : Nat} {c : Commit} (here : h.StandsAt id place c) :
    place < h.commits.length :=
  (List.getElem?_eq_some_iff.1 here.2).1

/-- A commit that is recorded stands behind the others. -/
theorem StandsAt.record {id : String} {place : Nat} {c : Commit} (here : h.StandsAt id place c) (new : Commit) :
    (h.record new).StandsAt id place c := by
  refine ⟨?_, ?_⟩
  · rw [History.record, List.findIdx?_append, here.1, Option.some_or]
  · rw [History.record, List.getElem?_append_left here.lt, here.2]

/-- A commit under a free id stands at the end. -/
theorem standsAt_record {c : Commit} (free : h.hasCommit c.id = false) :
    (h.record c).StandsAt c.id h.commits.length c := by
  have none : h.commits.findIdx? (·.id == c.id) = none := by
    simpa [hasCommit, List.findIdx?_eq_none_iff] using free
  refine ⟨?_, List.getElem?_concat_length⟩
  rw [History.record, List.findIdx?_append, none]
  simp

namespace Trail

/-- A commit that is recorded changes no trail. -/
theorem record (t : h.Trail next places) (new : Commit) : (h.record new).Trail next places := by
  induction t with
  | nil => exact .nil
  | cons here earlier _ ih => exact .cons (here.record new) earlier ih

/-- A trail is one of the commits, wherever the heads of branches are. -/
theorem of_commits_eq (t : h.Trail next places) (same : h'.commits = h.commits) : h'.Trail next places := by
  induction t with
  | nil => exact .nil
  | cons here earlier _ ih =>
    refine .cons ?_ earlier ih
    rw [StandsAt, same]
    exact here

theorem lt_length (t : h.Trail next places) : ∀ place ∈ places.head?, place < h.commits.length := by
  cases t with
  | nil => nofun
  | cons here earlier more =>
    rintro _ ⟨⟩
    exact here.lt

/-- A commit under a free id stands on top of the trail of its first parent. -/
theorem recordOnTop {c : Commit} (t : h.Trail c.parents.head? places) (free : h.hasCommit c.id = false) :
    (h.record c).Trail (some c.id) (h.commits.length :: places) :=
  .cons (standsAt_record free) t.lt_length (t.record c)

/-- A trail is no longer than its first place allows. -/
theorem length_le (t : h.Trail next places) : ∀ place ∈ places.head?, places.length ≤ place + 1 := by
  induction t with
  | nil => nofun
  | @cons id place c places here earlier more ih =>
    rintro _ ⟨⟩
    cases places with
    | nil => simp
    | cons other places =>
      have := earlier other rfl
      have := ih other rfl
      simp only [List.length_cons] at this ⊢
      omega

theorem length_le_length (t : h.Trail next places) : places.length ≤ h.commits.length := by
  cases hplaces : places.head? with
  | none => simp [List.head?_eq_none_iff.1 hplaces]
  | some place => exact (t.length_le place hplaces).trans (t.lt_length place hplaces)

theorem decreasing (t : h.Trail next places) : places.Pairwise (· > ·) := by
  induction t with
  | nil => exact .nil
  | @cons id place c places here earlier more ih =>
    cases places with
    | nil => exact List.pairwise_singleton ..
    | cons other places =>
      have first := earlier other rfl
      refine List.pairwise_cons.2 ⟨fun later hlater => ?_, ih⟩
      rcases List.mem_cons.1 hlater with rfl | hlater
      · exact first
      · exact ((List.pairwise_cons.1 ih).1 later hlater).trans first

/-- Whoever follows first parents as many times as a trail is long walks down the trail. -/
theorem follow (t : h.Trail next places) {bound : Nat} (room : places.length ≤ bound) :
    h.Walks next (h.follow bound next) ∧
      List.Forall₂ (fun place c => h.commits[place]? = some c) places (h.follow bound next) ∧
      (h.follow bound next).head?.map Commit.id = next ∧
      ∀ c ∈ (h.follow bound next).getLast?, c.parents.head? = none := by
  induction t generalizing bound with
  | nil =>
    have ends : h.follow bound none = [] := by cases bound <;> rfl
    rw [ends]
    exact ⟨.stop rfl, .nil, rfl, nofun⟩
  | @cons id place c places here earlier more ih =>
    obtain ⟨bound, rfl⟩ : ∃ rest, bound = rest + 1 := ⟨bound - 1, by rw [List.length_cons] at room; omega⟩
    obtain ⟨walks, visited, starts, ends⟩ := ih (Nat.le_of_succ_le_succ room)
    have goes : h.follow (bound + 1) (some id) = c :: h.follow bound c.parents.head? := by
      simp only [History.follow, here.commit?_eq]
    rw [goes]
    refine ⟨.step here.commit?_eq walks, .cons here.2 visited, congrArg some here.id_eq, fun last hlast => ?_⟩
    rw [List.getLast?_cons] at hlast
    cases hmore : (h.follow bound c.parents.head?).getLast? with
    | none =>
      rw [hmore] at hlast
      obtain rfl : c = last := by simpa using hlast
      rw [List.getLast?_eq_none_iff.1 hmore] at starts
      exact starts.symm
    | some other =>
      rw [hmore] at hlast
      obtain rfl : other = last := by simpa using hlast
      exact ends other hmore

end Trail

/-! ## Calls -/

/-- A call on a history: an operation is tried, or a commit is recorded as it is. -/
inductive Call where
  | attempt (s : Statement)
  | record (c : Commit)

/-- The history after a call. -/
def after (h : History) : Call → History
  | .attempt s => h.attempt s
  | .record c => h.record c

/-- The history after calls, one after the other. -/
def afterAll (h : History) (calls : List Call) : History := calls.foldl after h

/-- There is a trail from the head of every branch. -/
def Anchored (h : History) : Prop := ∀ b ∈ h.branches, ∃ places, h.Trail b.head places

theorem anchored_new (d : Direction) : Anchored { direction := d } := by
  intro b hb
  obtain rfl := List.mem_singleton.1 hb
  exact ⟨[], .nil⟩

namespace Anchored

theorem head? (a : h.Anchored) (name : String) : ∃ places, h.Trail (h.head? name) places := by
  rw [History.head?]
  cases found : h.branch? name with
  | none => exact ⟨[], .nil⟩
  | some b => exact a b (List.mem_of_find?_eq_some found)

theorem currentHead? (a : h.Anchored) : ∃ places, h.Trail h.currentHead? places := a.head? h.current

theorem record (a : h.Anchored) (c : Commit) : (h.record c).Anchored :=
  fun b hb => (a b hb).imp fun _ trail => trail.record c

/-- The head of a branch may move to any commit that has a trail. -/
theorem moveHead (a : h.Anchored) {name id : String} (onTrail : ∃ places, h.Trail (some id) places) :
    (h.moveHead name id).Anchored := by
  intro b hb
  obtain ⟨old, hold, rfl⟩ := List.mem_map.1 hb
  split
  · exact onTrail.imp fun _ trail => trail.of_commits_eq rfl
  · exact (a old hold).imp fun _ trail => trail.of_commits_eq rfl

/-- A commit whose first parent has a trail has one as well. -/
theorem push (a : h.Anchored) {details : Details} {type : CommitType} {parents : List String} {id : String}
    (onTrail : ∃ places, h.Trail parents.head? places) (e : h.push details type parents = .ok (id, h')) :
    h'.Anchored := by
  obtain ⟨free, -, rfl⟩ := push_eq_ok.1 e
  obtain ⟨places, trail⟩ := onTrail
  exact (a.record _).moveHead ⟨_, trail.recordOnTop free⟩

theorem commit (a : h.Anchored) {details : Details} {id : String} (e : h.commit details = .ok (id, h')) :
    h'.Anchored := by
  rw [commit_eq] at e
  refine a.push ?_ e
  rw [Option.head?_toList]
  exact a.currentHead?

theorem openBranch (a : h.Anchored) {name : String} {order : Option Int}
    (e : h.openBranch name order = .ok h') : h'.Anchored := by
  rw [openBranch_eq] at e
  split at e
  · cases e
  · cases e
    intro b hb
    rcases List.mem_append.1 hb with old | opened
    · exact (a b old).imp fun _ trail => trail.of_commits_eq rfl
    · obtain rfl := List.mem_singleton.1 opened
      exact a.currentHead?.imp fun _ trail => trail.of_commits_eq rfl

theorem checkout (a : h.Anchored) {name : String} (e : h.checkout name = .ok h') : h'.Anchored := by
  rw [checkout_eq] at e
  split at e
  · cases e
    exact fun b hb => (a b hb).imp fun _ trail => trail.of_commits_eq rfl
  · cases e

/-- A merged head is the second parent, so it need not lie on the trail. -/
theorem merge (a : h.Anchored) {name : String} {details : Details} {id : String}
    (e : h.merge name details = .ok (id, h')) : h'.Anchored := by
  rw [merge_eq] at e
  split at e
  · cases e
  split at e
  · cases e
  split at e
  · cases e
  · cases e
  · rename_i theirs ours hTheirs hOurs
    split at e
    · cases e
    · refine a.push ?_ e
      rw [List.head?_cons, ← hOurs]
      exact a.currentHead?

theorem cherryPick (a : h.Anchored) {picked : String} {parent : Option String} {tags : List String}
    {id : String} (e : h.cherryPick picked parent tags = .ok (id, h')) : h'.Anchored := by
  rw [cherryPick_eq] at e
  split at e
  · cases e
  split at e
  · cases e
  split at e
  · cases e
  · cases e
  · rename_i ours hOurs
    refine a.push ?_ e
    rw [List.head?_cons, ← hOurs]
    exact a.currentHead?

theorem apply (a : h.Anchored) {s : Statement} (e : h.apply s = .ok h') : h'.Anchored := by
  rw [apply_eq] at e
  cases s with
  | caption c =>
    cases e
    exact fun b hb => (a b hb).imp fun _ trail => trail.of_commits_eq rfl
  | commit details =>
    obtain ⟨⟨id, _⟩, made, rfl⟩ := Reading.map_eq_ok.1 e
    exact a.commit made
  | branch name order => exact a.openBranch e
  | checkout name => exact a.checkout e
  | merge name details =>
    obtain ⟨⟨id, _⟩, made, rfl⟩ := Reading.map_eq_ok.1 e
    exact a.merge made
  | cherryPick picked parent tags =>
    obtain ⟨⟨id, _⟩, made, rfl⟩ := Reading.map_eq_ok.1 e
    exact a.cherryPick made

theorem after (a : h.Anchored) (call : Call) : (h.after call).Anchored := by
  cases call with
  | attempt s =>
    simp only [History.after, History.attempt_eq]
    split
    · exact a.apply ‹_›
    · exact a
  | record c => exact a.record c

end Anchored

/-- Whatever calls make a history, every head has a trail. -/
theorem anchored_afterAll (d : Direction) (calls : List Call) : (afterAll { direction := d } calls).Anchored := by
  refine List.foldlRecOn calls History.after (anchored_new d) fun h a call _ => ?_
  exact a.after call

/-- Whatever calls make a history, operations or recorded commits with any ids and parents, the log of every
branch comes to an end. It starts with the head of the branch, goes down at each commit to an earlier place in
the history, and ends with a commit that has no first parent. -/
theorem log_afterAll (d : Direction) (calls : List Call) (name : String) :
    let h := afterAll { direction := d } calls
    h.Walks (h.head? name) (h.log name) ∧
      (∃ places : List Nat, List.Forall₂ (fun place c => h.commits[place]? = some c) places (h.log name) ∧
        places.Pairwise (· > ·)) ∧
      (h.log name).head?.map Commit.id = h.head? name ∧
      ∀ c ∈ (h.log name).getLast?, c.parents.head? = none := by
  intro h
  obtain ⟨places, trail⟩ := (anchored_afterAll d calls).head? name
  obtain ⟨walks, visited, starts, ends⟩ := trail.follow trail.length_le_length
  exact ⟨walks, ⟨places, visited, trail.decreasing⟩, starts, ends⟩

end History

end DiagramText.Git
