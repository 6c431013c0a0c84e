import DiagramText.Git.History
import Mathlib.Algebra.Order.BigOperators.Group.List
import Mathlib.Algebra.Order.Ring.Nat
import Mathlib.Logic.Relation

/-!
# Ancestors

The search for an ancestor looks at the ids that are pending, one after the other. Of an id that was not met
before the parents become pending, so that a round costs one pending id and opens at most the links that no
round has opened yet (`Round.budget_lt`). A search therefore ends within the number of links and one, in
whatever order it takes the ids, and the bound of `isAncestor` cuts none off.

Whatever a search comes upon can be reached along parents (`exists_of_meets`). When it ends in vain, the ids
that it met are closed under parents, and the ancestor is a parent of none of them (`exists_closed`). So
`isAncestor` is reachability along parents (`isAncestor_iff_reachable`), in histories with missing parents,
repeated ids and cycles as well.
-/

namespace DiagramText.Git

namespace History

variable {h : History} {target : String} {seen pending : List String}

/-- Whether a commit with the first id has the second one among its parents; of commits that share an id the
first counts. -/
def HasParent (h : History) (id parent : String) : Prop := parent ∈ h.parents id

/-! ## Rounds of a search -/

/-- How far a search has come: the ids that it met, and those that it has yet to look at. -/
structure Search where
  seen : List String
  pending : List String

/-- A round of a search, which looks at any of the ids that are pending. -/
inductive Round (h : History) : Search → Search → Prop
  | again {seen pending id} (waits : id ∈ pending) (met : id ∈ seen) :
    Round h ⟨seen, pending⟩ ⟨seen, pending.erase id⟩
  | opened {seen pending id} (waits : id ∈ pending) (new : id ∉ seen) :
    Round h ⟨seen, pending⟩ ⟨id :: seen, h.parents id ++ pending.erase id⟩

/-- The number of links to parents from the commits whose ids were not met. -/
def openLinks (h : History) (seen : List String) : Nat :=
  ((h.commits.filter (!seen.contains ·.id)).map (·.parents.length)).sum

/-- How many rounds there may still be. -/
def Search.budget (h : History) (s : Search) : Nat := h.openLinks s.seen + s.pending.length

theorem openLinks_nil (h : History) : h.openLinks [] = h.linkCount := by
  simp [openLinks, linkCount, List.sum]

/-- The links from an id that is met for the first time are no longer open. -/
theorem openLinks_cons (h : History) {id : String} (new : id ∉ seen) :
    h.openLinks (id :: seen) + (h.parents id).length ≤ h.openLinks seen := by
  rw [openLinks, openLinks, parents, commit?]
  induction h.commits with
  | nil => exact Nat.le_refl 0
  | cons c cs ih =>
    by_cases same : c.id = id
    · have fewer : (cs.filter (!(id :: seen).contains ·.id)).Sublist (cs.filter (!seen.contains ·.id)) := by
        refine List.monotone_filter_right cs fun c' => ?_
        simp
      have := (fewer.map (·.parents.length)).sum_le_sum (by simp)
      simp_all
      omega
    · by_cases met : c.id ∈ seen
      · simpa [same, met] using ih
      · simp_all
        omega

/-- A round brings a search closer to its end. -/
theorem Round.budget_lt {s s' : Search} (round : h.Round s s') : s'.budget h < s.budget h := by
  cases round with
  | again waits met =>
    have := List.length_erase_add_one waits
    simp only [Search.budget]
    omega
  | opened waits new =>
    have := List.length_erase_add_one waits
    have := h.openLinks_cons new
    simp only [Search.budget, List.length_append]
    omega

/-- A search has no more rounds than its budget. -/
theorem length_le_budget {s : Search} {later : List Search} (rounds : (s :: later).IsChain h.Round) :
    later.length ≤ s.budget h := by
  induction later generalizing s with
  | nil => exact Nat.zero_le _
  | cons next later ih =>
    obtain ⟨first, rest⟩ := List.isChain_cons_cons.1 rounds
    exact (ih rest).trans_lt first.budget_lt

/-! ## What a search finds -/

/-- A search finds only what can be reached from a pending id. -/
theorem exists_of_meets {bound : Nat} (found : h.meets target bound seen pending = true) :
    ∃ id ∈ pending, Relation.TransGen h.HasParent id target := by
  induction bound generalizing seen pending with
  | zero => simp [meets] at found
  | succ bound ih =>
    cases pending with
    | nil => simp [meets] at found
    | cons id pending =>
      rw [meets] at found
      split at found
      · obtain ⟨other, waits, reached⟩ := ih found
        exact ⟨other, List.mem_cons_of_mem id waits, reached⟩
      · simp only [Bool.or_eq_true, List.contains_iff_mem] at found
        rcases found with parent | found
        · exact ⟨id, List.mem_cons_self, .single parent⟩
        · obtain ⟨other, waits, reached⟩ := ih found
          rcases List.mem_append.1 waits with parent | waits
          · exact ⟨id, List.mem_cons_self, .head parent reached⟩
          · exact ⟨other, List.mem_cons_of_mem id waits, reached⟩

/-- Of the ids that were met, none has the target as a parent, and their parents were met or are pending. -/
def Explored (h : History) (target : String) (seen pending : List String) : Prop :=
  ∀ id ∈ seen, ¬h.HasParent id target ∧ ∀ parent, h.HasParent id parent → parent ∈ seen ∨ parent ∈ pending

theorem Explored.again {id : String} (explored : h.Explored target seen (id :: pending)) (met : id ∈ seen) :
    h.Explored target seen pending := by
  refine fun other hother => (explored other hother).imp_right fun parents parent link => ?_
  rcases parents parent link with met' | waits
  · exact .inl met'
  · rcases List.mem_cons.1 waits with rfl | waits
    · exact .inl met
    · exact .inr waits

theorem Explored.opened {id : String} (explored : h.Explored target seen (id :: pending))
    (missed : ¬h.HasParent id target) : h.Explored target (id :: seen) (h.parents id ++ pending) := by
  intro other hother
  rcases List.mem_cons.1 hother with rfl | old
  · exact ⟨missed, fun parent link => .inr (List.mem_append_left pending link)⟩
  · refine (explored other old).imp_right fun parents parent link => ?_
    rcases parents parent link with met | waits
    · exact .inl (List.mem_cons_of_mem id met)
    · rcases List.mem_cons.1 waits with rfl | waits
      · exact .inl List.mem_cons_self
      · exact .inr (List.mem_append_right _ waits)

/-- A search that ends in vain within its budget has met all that can be reached. -/
theorem exists_closed {bound : Nat} (room : Search.budget h ⟨seen, pending⟩ ≤ bound)
    (explored : h.Explored target seen pending) (vain : h.meets target bound seen pending = false) :
    ∃ all, h.Explored target all [] ∧ seen ⊆ all ∧ pending ⊆ all := by
  induction bound generalizing seen pending with
  | zero =>
    obtain rfl : pending = [] := List.length_eq_zero_iff.1 (by simp only [Search.budget] at room; omega)
    exact ⟨seen, explored, List.Subset.refl seen, List.nil_subset seen⟩
  | succ bound ih =>
    cases pending with
    | nil => exact ⟨seen, explored, List.Subset.refl seen, List.nil_subset seen⟩
    | cons id pending =>
      rw [meets] at vain
      split at vain
      · rename_i met
        rw [List.contains_iff_mem] at met
        have less := Round.budget_lt (h := h) (.again (List.mem_cons_self (l := pending)) met)
        rw [List.erase_cons_head] at less
        obtain ⟨all, closed, old, rest⟩ := ih (by omega) (explored.again met) vain
        exact ⟨all, closed, old, List.cons_subset.2 ⟨old met, rest⟩⟩
      · rename_i new
        rw [List.contains_iff_mem] at new
        obtain ⟨missed, vain⟩ : ¬h.HasParent id target ∧
            h.meets target bound (id :: seen) (h.parents id ++ pending) = false := by
          simpa [HasParent] using vain
        have less := Round.budget_lt (h := h) (.opened (List.mem_cons_self (l := pending)) new)
        rw [List.erase_cons_head] at less
        obtain ⟨all, closed, old, rest⟩ := ih (by omega) (explored.opened missed) vain
        obtain ⟨first, old⟩ := List.cons_subset.1 old
        exact ⟨all, closed, old, List.cons_subset.2 ⟨first, (List.append_subset.1 rest).2⟩⟩

/-- What is closed under parents is not left, and the target is not come upon inside. -/
theorem Explored.not_transGen {all : List String} (closed : h.Explored target all []) {id : String}
    (inside : id ∈ all) : ¬Relation.TransGen h.HasParent id target := by
  intro reached
  induction reached using Relation.TransGen.head_induction_on with
  | single link => exact (closed _ inside).1 link
  | head link _ ih =>
    rcases (closed _ inside).2 _ link with met | waits
    · exact ih met
    · cases waits

/-- Within its budget a search finds the target exactly if it can be reached. -/
theorem meets_iff {bound : Nat} {commit : String} (room : h.linkCount < bound) :
    h.meets target bound [] [commit] = true ↔ Relation.TransGen h.HasParent commit target := by
  constructor
  · intro found
    obtain ⟨id, waits, reached⟩ := exists_of_meets found
    obtain rfl := List.mem_singleton.1 waits
    exact reached
  · intro reached
    by_contra vain
    rw [Bool.not_eq_true] at vain
    have budget : Search.budget h ⟨[], [commit]⟩ ≤ bound := by
      rw [Search.budget, openLinks_nil, List.length_singleton]
      exact room
    obtain ⟨all, closed, -, inside⟩ := exists_closed budget (fun _ hid => nomatch hid) vain
    exact closed.not_transGen (inside List.mem_cons_self) reached

/-- Whether one commit is an ancestor of another is found out in at most as many rounds as there are links,
and one, whichever pending ids they look at, and more rounds make no difference. The answer is whether one or
more steps to a parent lead from the commit to its ancestor. -/
theorem isAncestor_iff_reachable (h : History) (ancestor commit : String) :
    (∀ later, (⟨[], [commit]⟩ :: later : List Search).IsChain h.Round → later.length ≤ h.linkCount + 1) ∧
      (∀ bound, h.linkCount < bound → h.meets ancestor bound [] [commit] = h.isAncestor ancestor commit) ∧
      (h.isAncestor ancestor commit = true ↔ Relation.TransGen h.HasParent commit ancestor) := by
  have answer : h.isAncestor ancestor commit = true ↔ Relation.TransGen h.HasParent commit ancestor :=
    meets_iff (Nat.lt_succ_self _)
  refine ⟨fun later rounds => ?_, fun bound room => ?_, answer⟩
  · have := length_le_budget rounds
    rwa [Search.budget, openLinks_nil, List.length_singleton] at this
  · rw [Bool.eq_iff_iff, meets_iff room, answer]

end History

end DiagramText.Git
