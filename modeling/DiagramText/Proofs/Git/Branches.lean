import DiagramText.Proofs.Git.Ancestors
import DiagramText.Proofs.Git.History

/-!
# Commits on branches

On a branch are its head and the ancestors of its head, wherever they were made. Commits are only added, under ids
that are free, so what can be reached from a commit stays the same ever after. A commit that is pushed becomes the
head of the branch that is checked out, above what can be reached from its parents, and nothing changes on any other
branch (`Pushed`).
-/

namespace DiagramText.Git

namespace History

variable {h h' : History} {name id x : String}

/-- Whether a commit can be reached from an id along parents, in any number of steps. -/
def Reaches (h : History) (start id : String) : Prop := Relation.ReflTransGen h.HasParent start id

/-- Whether a commit is on a branch. -/
def OnBranch (h : History) (name id : String) : Prop := ∃ head, h.head? name = some head ∧ h.Reaches head id

theorem commit?_eq_none_iff : h.commit? id = none ↔ h.hasCommit id = false := by
  simp [commit?, hasCommit]

theorem exists_commit?_of_hasCommit (known : h.hasCommit id = true) : ∃ c ∈ h.commits, h.commit? id = some c := by
  cases found : h.commit? id with
  | none => simp [commit?_eq_none_iff.1 found] at known
  | some c => exact ⟨c, List.mem_of_find?_eq_some found, rfl⟩

/-! ## Recording a commit -/

theorem commit?_record_of_known (known : h.hasCommit id = true) (c : Commit) :
    (h.record c).commit? id = h.commit? id := by
  obtain ⟨old, -, found⟩ := exists_commit?_of_hasCommit known
  rw [commit?] at found
  rw [commit?, commit?, record, List.find?_append, found, Option.some_or]

theorem commit?_record_new {c : Commit} (fresh : h.hasCommit c.id = false) :
    (h.record c).commit? c.id = some c := by
  have none := commit?_eq_none_iff.2 fresh
  rw [commit?] at none
  rw [commit?, record, List.find?_append, none, Option.none_or, List.find?_cons, BEq.rfl]

theorem hasParent_record_of_known (known : h.hasCommit id = true) (c : Commit) :
    (h.record c).HasParent id x ↔ h.HasParent id x := by
  rw [HasParent, HasParent, parents, parents, commit?_record_of_known known]

theorem hasParent_record_new {c : Commit} (fresh : h.hasCommit c.id = false) :
    (h.record c).HasParent c.id x ↔ x ∈ c.parents := by
  rw [HasParent, parents, commit?_record_new fresh, Option.elim_some]

namespace Sound

theorem hasCommit_of_hasParent (hs : h.Sound) (link : h.HasParent id x) : h.hasCommit x = true := by
  rw [HasParent, parents] at link
  cases found : h.commit? id with
  | none => simp [found] at link
  | some c =>
    rw [found, Option.elim_some] at link
    obtain ⟨p, hp, same, -⟩ := hs.parents_earlier c (List.mem_of_find?_eq_some found) x link
    exact hasCommit_iff.2 ⟨p, hp, same⟩

/-- What can be reached from a commit is a commit. -/
theorem hasCommit_of_reaches (hs : h.Sound) (known : h.hasCommit id = true) (way : h.Reaches id x) :
    h.hasCommit x = true := by
  cases way with
  | refl => exact known
  | tail _ link => exact hs.hasCommit_of_hasParent link

/-- A recorded commit changes nothing about what can be reached from the commits before it. -/
theorem reaches_record (hs : h.Sound) (known : h.hasCommit id = true) (c : Commit) :
    (h.record c).Reaches id x ↔ h.Reaches id x := by
  constructor
  · intro way
    induction way with
    | refl => exact .refl
    | tail _ link ih => exact ih.tail ((hasParent_record_of_known (hs.hasCommit_of_reaches known ih) c).1 link)
  · intro way
    induction way with
    | refl => exact .refl
    | tail before link ih =>
      exact ih.tail ((hasParent_record_of_known (hs.hasCommit_of_reaches known before) c).2 link)

/-- From a commit under a free id one reaches itself and what one reaches from its parents. -/
theorem reaches_record_new (hs : h.Sound) {c : Commit} (fresh : h.hasCommit c.id = false)
    (known : ∀ p ∈ c.parents, h.hasCommit p = true) :
    (h.record c).Reaches c.id x ↔ x = c.id ∨ ∃ p ∈ c.parents, h.Reaches p x := by
  rw [Reaches, Relation.ReflTransGen.cases_head_iff, eq_comm]
  refine or_congr_right (exists_congr fun p => ?_)
  rw [hasParent_record_new fresh]
  exact and_congr_right fun parent => hs.reaches_record (known p parent) c

end Sound

/-! ## Moving a head -/

theorem branch?_moveHead (h : History) (name id other : String) :
    (h.moveHead name id).branch? other =
      (h.branch? other).map fun b => if b.name = name then { b with head := some id } else b := by
  rw [branch?, moveHead, List.find?_map, branch?]
  congr 2
  funext b
  rw [Function.comp_apply]
  split <;> rfl

theorem branch?_moveHead_of_ne {other : String} (ne : other ≠ name) :
    (h.moveHead name id).branch? other = h.branch? other := by
  rw [branch?_moveHead]
  cases found : h.branch? other with
  | none => rfl
  | some b =>
    have named : b.name = other := by simpa using List.find?_some found
    rw [Option.map_some, if_neg (named ▸ ne)]

theorem head?_moveHead_self (exists_name : (h.branch? name).isSome = true) :
    (h.moveHead name id).head? name = some id := by
  obtain ⟨b, found⟩ := Option.isSome_iff_exists.1 exists_name
  have named : b.name = name := by simpa using List.find?_some found
  rw [head?, branch?_moveHead, found, Option.map_some, if_pos named, Option.bind_some]

/-! ## Pushing a commit -/

/-- What is different after a commit is pushed: it is the head of the branch that is checked out, and lies
above what can be reached from its parents. -/
structure Pushed (h : History) (parents : List String) (id : String) (h' : History) : Prop where
  fresh : h.hasCommit id = false
  current : h'.current = h.current
  head : h'.head? h.current = some id
  others : ∀ other, other ≠ h.current → h'.branch? other = h.branch? other
  made : ∃ c, h'.commits = h.commits ++ [c] ∧ c.id = id ∧ c.branch = h.current
  above : ∀ x, h'.Reaches id x ↔ x = id ∨ ∃ p ∈ parents, h.Reaches p x
  before : ∀ start, h.hasCommit start = true → ∀ x, h'.Reaches start x ↔ h.Reaches start x

theorem Sound.pushed (hs : h.Sound) {details : Details} {type : CommitType} {parents : List String}
    (known : ∀ p ∈ parents, h.hasCommit p = true) (e : h.push details type parents = .ok (id, h')) :
    Pushed h parents id h' := by
  obtain ⟨fresh, -, rfl⟩ := push_eq_ok.1 e
  exact {
    fresh
    current := rfl
    head := head?_moveHead_self (branch?_isSome_iff.2 hs.current_mem)
    others := fun other ne => branch?_moveHead_of_ne ne
    made := ⟨_, rfl, rfl, rfl⟩
    above := fun x => hs.reaches_record_new fresh known
    before := fun start old x => hs.reaches_record old _ }

namespace Pushed

variable {parents : List String}

theorem head?_other (p : Pushed h parents id h') {other : String} (ne : other ≠ h.current) :
    h'.head? other = h.head? other := by
  rw [head?, head?, p.others other ne]

/-- The new commit and what its parents reach are on the branch that is checked out. -/
theorem onBranch_current (p : Pushed h parents id h') :
    h'.OnBranch h.current x ↔ x = id ∨ ∃ parent ∈ parents, h.Reaches parent x := by
  simp only [OnBranch, p.head, Option.some.injEq, exists_eq_left', p.above]

theorem onBranch_other (p : Pushed h parents id h') (hs : h.Sound) {other : String} (ne : other ≠ h.current) :
    h'.OnBranch other x ↔ h.OnBranch other x := by
  rw [OnBranch, OnBranch, p.head?_other ne]
  exact exists_congr fun head => and_congr_right fun e => p.before head (hs.hasCommit_of_head e) x

end Pushed

/-- A commit may be pushed under any id that no commit has. -/
theorem exists_push_eq_ok (details : Details) (type : CommitType) (parents : List String) :
    (∃ made, h.push details type parents = .ok made) ↔ ∀ given ∈ details.id, h.hasCommit given = false := by
  simp only [Prod.exists, push_eq_ok]
  constructor
  · rintro ⟨id, h', fresh, rfl, -⟩ given hgiven
    rwa [Option.mem_def.1 hgiven, Option.getD_some] at fresh
  · intro free
    refine ⟨_, _, ?_, rfl, rfl⟩
    cases given : details.id with
    | none =>
      obtain ⟨-, -, fresh, -⟩ := exists_freeId h
      exact fresh
    | some id => exact free id given

end History

end DiagramText.Git
