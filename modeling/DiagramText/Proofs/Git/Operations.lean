import DiagramText.Git.Document

/-!
# Operations on a history

An operation may be refused at any of its steps. All the steps that refuse it come before those that change the
history, so an operation that is refused spares the history (`Operation.spares_perform`), and trying one comes to
what it makes of the history or to the history itself (`History.attempt_eq`). What an operation makes of a history is
stated for each of them by its cases (`History.push_eq` and the lemmas behind it).
-/

namespace DiagramText.Git

namespace Operation

variable {α : Type} {h : History}

/-! ## Steps -/

section

variable (h)

theorem outcome_get_bind (f : History → Operation α) : (get >>= f).outcome h = (f h).outcome h := rfl

theorem outcome_discard (op : Operation α) :
    (discard op).outcome h = ((op.outcome h).1.map fun _ => (), (op.outcome h).2) := by
  show Operation.outcome (Functor.mapConst () op) h = _
  rw [outcome, map_const, Function.comp_apply, ExceptT.run_map, StateT.run_map]
  rfl

end

/-! ## Refusals -/

/-- If the operation is refused, it leaves the history as it was. -/
def Spares (op : Operation α) (h : History) : Prop := ∀ r h', op.outcome h = (.error r, h') → h' = h

theorem spares_throw (r : Refusal) : (throw r : Operation α).Spares h := by
  rintro _ _ ⟨⟩
  rfl

theorem Spares.discard {op : Operation α} (spared : op.Spares h) : (discard op).Spares h := by
  intro r h' refused
  rw [outcome_discard] at refused
  cases e : op.outcome h with
  | mk answer after =>
    rw [e] at refused
    cases answer with
    | ok => cases refused
    | error =>
      cases refused
      exact spared _ after e

theorem spares_push (details : Details) (type : CommitType) (parents : List String) :
    (push details type parents).Spares h := by
  intro r h'
  rw [push, outcome_get_bind]
  split
  · exact spares_throw _ r h'
  · nofun

theorem spares_openBranch (name : String) (order : Option Int) : (openBranch name order).Spares h := by
  intro r h'
  rw [openBranch, outcome_get_bind]
  split
  · exact spares_throw _ r h'
  · nofun

theorem spares_checkout (name : String) : (checkout name).Spares h := by
  intro r h'
  rw [checkout, outcome_get_bind]
  split
  · nofun
  · exact spares_throw _ r h'

theorem spares_merge (name : String) (details : Details) : (merge name details).Spares h := by
  intro r h'
  rw [merge, outcome_get_bind]
  split
  · exact spares_throw _ r h'
  split
  · exact spares_throw _ r h'
  split
  · exact spares_throw _ r h'
  · exact spares_throw _ r h'
  · split
    · exact spares_throw _ r h'
    · exact spares_push _ _ _ r h'

theorem spares_cherryPick (id : String) (parent : Option String) (tags : List String) :
    (cherryPick id parent tags).Spares h := by
  intro r h'
  rw [cherryPick, outcome_get_bind]
  split
  · exact spares_throw _ r h'
  split
  · exact spares_throw _ r h'
  split
  · exact spares_throw _ r h'
  · exact spares_throw _ r h'
  · exact spares_push _ _ _ r h'

/-- A statement that is refused leaves the history as it was. -/
theorem spares_perform (s : Statement) : (perform s).Spares h := by
  cases s with
  | caption caption => exact nofun
  | commit details => exact Spares.discard (spares_push _ _ _)
  | branch name order => exact spares_openBranch name order
  | checkout name => exact spares_checkout name
  | merge name details => exact (spares_merge name details).discard
  | cherryPick id parent tags => exact (spares_cherryPick id parent tags).discard

/-! ## What comes of a history -/

section

variable (h)

theorem on_get_bind (f : History → Operation α) : (get >>= f).on h = (f h).on h := rfl

theorem on_discard (op : Operation α) : (discard op).on h = (op.on h).map fun made => ((), made.2) := by
  rw [on, on, outcome_discard]
  cases op.outcome h with
  | mk answer after => cases answer <;> rfl

end

end Operation

namespace History

/-! ## Operations by their cases -/

section

variable (h : History)

/-- Adds a commit to the branch that is checked out. -/
def push (details : Details) (type : CommitType) (parents : List String) : Except Refusal (String × History) :=
  (Operation.push details type parents).on h

/-- Makes a commit on the branch that is checked out. -/
def commit (details : Details) : Except Refusal (String × History) := (Operation.commit details).on h

/-- Opens a branch at the last commit and checks it out. -/
def openBranch (name : String) (order : Option Int) : Except Refusal History :=
  ((Operation.openBranch name order).on h).map (·.2)

/-- Checks out a branch. -/
def checkout (name : String) : Except Refusal History := ((Operation.checkout name).on h).map (·.2)

/-- Merges a branch into the one that is checked out. -/
def merge (name : String) (details : Details) : Except Refusal (String × History) :=
  (Operation.merge name details).on h

/-- Repeats a commit of another branch on the one that is checked out. -/
def cherryPick (id : String) (parent : Option String) (tags : List String) : Except Refusal (String × History) :=
  (Operation.cherryPick id parent tags).on h

/-- The history after an operation is tried on it, whether it is refused or not. -/
def attempt (s : Statement) : History := ((Operation.perform s).outcome h).2

theorem push_eq (details : Details) (type : CommitType) (parents : List String) :
    h.push details type parents =
      match details.id.filter h.hasCommit with
      | some id => .error (.duplicateCommit id)
      | none =>
        let id := details.id.getD h.freeId
        let commit : Commit :=
          { id, message := details.message, type := details.type.getD type, tags := details.tags,
            branch := h.current, parents, seq := h.commits.length }
        .ok (id, (h.record commit).moveHead h.current id) := by
  rw [push, Operation.push, Operation.on_get_bind]
  cases details.id.filter h.hasCommit <;> rfl

theorem commit_eq (details : Details) : h.commit details = h.push details .normal h.currentHead?.toList := rfl

theorem openBranch_eq (name : String) (order : Option Int) :
    h.openBranch name order =
      if (h.branch? name).isSome then .error (.branchExists name)
      else
        .ok { h with branches := h.branches ++ [{ name, order, head := h.currentHead? }]
                     current := name } := by
  rw [openBranch, Operation.openBranch, Operation.on_get_bind]
  split <;> rfl

theorem checkout_eq (name : String) :
    h.checkout name =
      if (h.branch? name).isSome then .ok { h with current := name } else .error (.unknownBranch name) := by
  rw [checkout, Operation.checkout, Operation.on_get_bind]
  split <;> rfl

theorem merge_eq (name : String) (details : Details) :
    h.merge name details =
      if (h.branch? name).isNone then .error (.unknownBranch name)
      else if name = h.current then .error (.mergeIntoSelf name)
      else match h.head? name, h.currentHead? with
        | none, _ => .error (.nothingToMerge name)
        | some _, none => .error (.emptyBranch h.current)
        | some theirs, some ours =>
          if ours = theirs || h.isAncestor theirs ours then .error (.alreadyMerged h.current)
          else h.push details .merge [ours, theirs] := by
  rw [merge, Operation.merge, Operation.on_get_bind]
  split
  · rfl
  split
  · rfl
  cases h.head? name with
  | none => rfl
  | some theirs =>
    cases h.currentHead? with
    | none => rfl
    | some ours =>
      dsimp only
      split <;> rfl

theorem cherryPick_eq (id : String) (parent : Option String) (tags : List String) :
    h.cherryPick id parent tags =
      match h.commit? id with
      | none => .error (.unknownCommit id)
      | some source =>
        if source.branch = h.current then .error (.pickFromOwnBranch id)
        else match parent.filter (!source.parents.contains ·), h.currentHead? with
          | some stranger, _ => .error (.notParent id stranger)
          | none, none => .error (.emptyBranch h.current)
          | none, some ours =>
            h.push { message := some ("cherry-pick: " ++ id), tags } .cherryPick [ours] := by
  rw [cherryPick, Operation.cherryPick, Operation.on_get_bind]
  cases h.commit? id with
  | none => rfl
  | some source =>
    dsimp only
    split
    · rfl
    cases parent.filter (!source.parents.contains ·) with
    | some stranger => rfl
    | none => cases h.currentHead? <;> rfl

theorem apply_eq (s : Statement) :
    h.apply s =
      match s with
      | .caption caption => .ok { h with captions := h.captions.set caption }
      | .commit details => (h.commit details).map (·.2)
      | .branch name order => h.openBranch name order
      | .checkout name => h.checkout name
      | .merge name details => (h.merge name details).map (·.2)
      | .cherryPick id parent tags => (h.cherryPick id parent tags).map (·.2) := by
  have answered {α : Type} (op : Operation α) : ((discard op).on h).map (·.2) = (op.on h).map (·.2) := by
    rw [Operation.on_discard]
    cases op.on h <;> rfl
  cases s with
  | commit => exact answered _
  | merge => exact answered _
  | cherryPick => exact answered _
  | _ => rfl

/-- What is tried on a history leaves it as it was if it is refused. -/
theorem attempt_eq (s : Statement) :
    h.attempt s =
      match h.apply s with
      | .ok h' => h'
      | .error _ => h := by
  rw [attempt, apply, Operation.on]
  cases e : (Operation.perform s).outcome h with
  | mk answer after =>
    cases answer with
    | ok => rfl
    | error r => exact Operation.spares_perform s r after e

end

end History

end DiagramText.Git
