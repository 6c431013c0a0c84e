import DiagramText.Captions
import DiagramText.Direction
import DiagramText.Issue

/-!
# Git histories

A history is a list of commits in the order in which they were made, with branches that point at
their last commits. It starts with an empty branch, which is checked out. Five operations extend it,
each of which may be refused: making a commit, opening a branch, checking one out, merging one, and
picking a commit from another branch. An operation goes through its steps on the history one by one
(`Operation`). `History.record` adds a commit without any of their checks, so ids may then repeat and
parents may be missing; a repeated id stands for its first commit.
-/

namespace DiagramText.Git

/-- What a commit does. -/
inductive CommitType where
  | normal | reverse | highlight | merge | cherryPick
deriving DecidableEq, Inhabited

/-- The type that a document may give a commit by a word. -/
def CommitType.ofWord? : String → Option CommitType
  | "NORMAL" => some normal
  | "REVERSE" => some reverse
  | "HIGHLIGHT" => some highlight
  | _ => none

/-- A commit; `seq` is its place in the history. -/
structure Commit where
  id : String
  message : Option String := none
  type : CommitType
  tags : List String := []
  branch : String
  parents : List String
  seq : Nat
deriving DecidableEq, Inhabited

/-- A branch; its head is its last commit. -/
structure Branch where
  name : String
  order : Option Int := none
  head : Option String := none
deriving DecidableEq, Inhabited

/-- What may be said about a new commit. -/
structure Details where
  id : Option String := none
  message : Option String := none
  type : Option CommitType := none
  tags : List String := []
deriving DecidableEq, Inhabited

/-- Why an operation is refused. -/
inductive Refusal where
  | branchExists (name : String)
  | unknownBranch (name : String)
  | duplicateCommit (id : String)
  | unknownCommit (id : String)
  | mergeIntoSelf (name : String)
  | nothingToMerge (name : String)
  | alreadyMerged (name : String)
  | emptyBranch (name : String)
  | pickFromOwnBranch (id : String)
  | notParent (commit parent : String)
deriving DecidableEq

/-- The words of a refusal. -/
def Refusal.message : Refusal → String
  | branchExists name => "branch '" ++ name ++ "' already exists"
  | unknownBranch name => "branch '" ++ name ++ "' does not exist"
  | duplicateCommit id => "commit id '" ++ id ++ "' is already used"
  | unknownCommit id => "commit '" ++ id ++ "' does not exist"
  | mergeIntoSelf name => "cannot merge branch '" ++ name ++ "' into itself"
  | nothingToMerge name => "branch '" ++ name ++ "' has no commits to merge"
  | alreadyMerged name => "branch '" ++ name ++ "' is already up to date"
  | emptyBranch name => "branch '" ++ name ++ "' has no commits"
  | pickFromOwnBranch id => "commit '" ++ id ++ "' is already on the current branch"
  | notParent commit parent =>
    "'" ++ parent ++ "' is not a parent of merge commit '" ++ commit ++ "'"

/-- A history. -/
structure History where
  captions : Captions := {}
  direction : Direction := .leftRight
  commits : List Commit := []
  branches : List Branch := [{ name := "main" }]
  current : String := "main"
deriving DecidableEq, Inhabited

namespace History

/-- The first commit with an id. -/
def commit? (h : History) (id : String) : Option Commit := h.commits.find? (·.id == id)

/-- Whether there is a commit with the id. -/
def hasCommit (h : History) (id : String) : Bool := h.commits.any (·.id == id)

/-- The branch of a name. -/
def branch? (h : History) (name : String) : Option Branch := h.branches.find? (·.name == name)

/-- The last commit of a branch. -/
def head? (h : History) (name : String) : Option String := (h.branch? name).bind Branch.head

/-- The last commit of the branch that is checked out. -/
def currentHead? (h : History) : Option String := h.head? h.current

/-- The parents of the first commit with an id. -/
def parents (h : History) (id : String) : List String := (h.commit? id).elim [] Commit.parents

/-! ## Ancestors -/

/-- Whether `target` is a parent of a commit that is met on the way up from those of `pending`, past
those of `seen`. -/
def meets (h : History) (target : String) : Nat → List String → List String → Bool
  | 0, _, _ | _, _, [] => false
  | more + 1, seen, id :: pending =>
    if seen.contains id then h.meets target more seen pending
    else
      let parents := h.parents id
      parents.contains target || h.meets target more (id :: seen) (parents ++ pending)

/-- The number of pairs of a commit and a parent of it. -/
def linkCount (h : History) : Nat := (h.commits.map (·.parents.length)).foldr (· + ·) 0

/-- Whether one or more steps to a parent lead from `commit` to `ancestor`. -/
def isAncestor (h : History) (ancestor commit : String) : Bool :=
  h.meets ancestor (h.linkCount + 1) [] [commit]

/-- The commits from one on along first parents, at most so many. -/
def follow (h : History) : Nat → Option String → List Commit
  | 0, _ | _, none => []
  | more + 1, some id =>
    match h.commit? id with
    | some commit => commit :: h.follow more commit.parents.head?
    | none => []

/-- The commits of a branch, the last one first, along first parents. -/
def log (h : History) (name : String) : List Commit :=
  h.follow h.commits.length (h.head? name)

/-! ## Operations -/

/-- The history with one more commit, unchecked. -/
def record (h : History) (commit : Commit) : History :=
  { h with commits := h.commits ++ [commit] }

/-- The history in which the head of a branch has moved. -/
def moveHead (h : History) (name id : String) : History :=
  { h with
    branches := h.branches.map fun b => if b.name = name then { b with head := some id } else b }

/-- A free id for the next commit: the first of those with a number, from the number of commits on. -/
def freeId (h : History) : String :=
  let candidates := (List.range (h.commits.length + 1)).map fun i =>
    "c" ++ toString (h.commits.length + i)
  (candidates.find? (!h.hasCommit ·)).getD ""

end History

/-- An operation on a history. It may be refused, and leaves what it has made of the history until then. -/
abbrev Operation := ExceptT Refusal (StateM History)

namespace Operation

/-- What an operation answers, or why it is refused, and the history that it leaves. -/
def outcome {α : Type} (op : Operation α) (h : History) : Except Refusal α × History := Id.run (op.run.run h)

/-- What an operation that is not refused answers and makes of the history. -/
def on {α : Type} (op : Operation α) (h : History) : Except Refusal (α × History) :=
  match op.outcome h with
  | (.ok answer, h') => .ok (answer, h')
  | (.error r, _) => .error r

/-- Adds a commit to the branch that is checked out. Gives its id. -/
def push (details : Details) (type : CommitType) (parents : List String) : Operation String := do
  let h ← get
  match details.id.filter h.hasCommit with
  | some id => throw (.duplicateCommit id)
  | none =>
    let id := details.id.getD h.freeId
    modify (·.record
      { id, message := details.message, type := details.type.getD type, tags := details.tags,
        branch := h.current, parents, seq := h.commits.length })
    modify (·.moveHead h.current id)
    return id

/-- Makes a commit on the branch that is checked out. -/
def commit (details : Details) : Operation String := do
  push details .normal (← get).currentHead?.toList

/-- Opens a branch at the last commit and checks it out. -/
def openBranch (name : String) (order : Option Int) : Operation Unit := do
  let h ← get
  if (h.branch? name).isSome then throw (.branchExists name)
  else
    modify ({ · with branches := h.branches ++ [{ name, order, head := h.currentHead? }] })
    modify ({ · with current := name })

/-- Checks out a branch. -/
def checkout (name : String) : Operation Unit := do
  if ((← get).branch? name).isSome then modify ({ · with current := name })
  else throw (.unknownBranch name)

/-- Merges a branch into the one that is checked out. -/
def merge (name : String) (details : Details) : Operation String := do
  let h ← get
  if (h.branch? name).isNone then throw (.unknownBranch name)
  else if name = h.current then throw (.mergeIntoSelf name)
  else match h.head? name, h.currentHead? with
    | none, _ => throw (.nothingToMerge name)
    | some _, none => throw (.emptyBranch h.current)
    | some theirs, some ours =>
      if ours = theirs || h.isAncestor theirs ours then throw (.alreadyMerged h.current)
      else push details .merge [ours, theirs]

/-- Repeats a commit of another branch on the one that is checked out. If a parent is named, it must
be one of the commit's. -/
def cherryPick (id : String) (parent : Option String) (tags : List String) : Operation String := do
  let h ← get
  match h.commit? id with
  | none => throw (.unknownCommit id)
  | some source =>
    if source.branch = h.current then throw (.pickFromOwnBranch id)
    else match parent.filter (!source.parents.contains ·), h.currentHead? with
      | some stranger, _ => throw (.notParent id stranger)
      | none, none => throw (.emptyBranch h.current)
      | none, some ours => push { message := some ("cherry-pick: " ++ id), tags } .cherryPick [ours]

end Operation

namespace History

/-- The history without commits in the same direction. -/
def clear (h : History) : History := { direction := h.direction }

/-! ## Checks -/

/-- The number of commits. -/
def entityCount (h : History) : Nat := h.commits.length

/-- What is wrong with the commits, where those with the ids `seen` came before. -/
def commitIssues (h : History) (seen : List String) : List Commit → List Issue
  | [] => []
  | c :: cs =>
    (if seen.contains c.id then [.duplicateId c.id] else []) ++
      ((c.parents.filter (!h.hasCommit ·)).map (Issue.danglingReference "commit parent")) ++
      (if (h.branch? c.branch).isNone then [.danglingReference "commit branch" c.branch] else []) ++
      h.commitIssues (c.id :: seen) cs

/-- What is wrong with the history. -/
def issues (h : History) : List Issue :=
  Issue.ofCount h.commits.length ++ h.commitIssues [] h.commits ++
    h.branches.filterMap fun b =>
      (b.head.filter (!h.hasCommit ·)).map (Issue.danglingReference "branch head")

end History

instance : Written CommitType where
  write
    | .normal => .text "Normal"
    | .reverse => .text "Reverse"
    | .highlight => .text "Highlight"
    | .merge => .text "Merge"
    | .cherryPick => .text "CherryPick"

instance : Written Commit where
  write c :=
    .object [("id", write c.id), ("message", write c.message), ("commit_type", write c.type),
      ("tags", write c.tags), ("branch", write c.branch), ("parents", write c.parents),
      ("seq", write c.seq)]

instance : Written Branch where
  write b := .object [("name", write b.name), ("order", write b.order), ("head", write b.head)]

instance : Written History where
  write h :=
    .object (h.captions.fields ++
      [("direction", write h.direction), ("commits", write h.commits),
        ("branches", write h.branches), ("current_branch", write h.current)])

end DiagramText.Git
