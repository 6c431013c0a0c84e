import DiagramText.Sequence.Document
import Mathlib.Logic.ExistsUnique

/-!
# Events of sequence diagrams

Putting statements into a diagram turns nested blocks into a list of events. The marks in that list are
well bracketed: read from the left with a count of the open blocks, every event carries the count that it
should, the count never falls below zero, and it is zero at the end (`depth?_applyAll`).

Nothing is lost by this. What statements tell is their course: messages, activations, notes and blocks, in
which a sign on an arrow is an activation of its own. An outline collects the course from the events, with
a stack for the blocks that are open, and it gives back the course of the statements (`outline_applyAll`).
Since the course makes the same events, but for the numbers of messages (`unnumbered_applyAll`), it is the
only one that does.
-/

namespace DiagramText.Sequence

/-! ## Depths -/

/-- How many blocks are open after an event, if `depth` are open before it and it carries the right
number. -/
def Event.depthAfter? (depth : Nat) : Event → Option Nat
  | .message m => if m.depth = depth then some depth else none
  | .activate _ | .deactivate _ | .note _ => some depth
  | .blockStart _ _ carried => if carried = depth then some (depth + 1) else none
  | .blockBranch _ _ carried => if carried + 1 = depth then some depth else none
  | .blockEnd carried => if carried + 1 = depth then some carried else none

namespace Diagram

/-- A message is the next event, with or without a number. -/
theorem exists_events_addMessage (d : Diagram) (m : Message) :
    ∃ number, (d.addMessage m).events = (d.addEvent (.message { m with number })).events := by
  rw [addMessage]
  cases ((d.ensureParticipant m.source).ensureParticipant m.target).numbering with
  | none => exact ⟨m.number, by simp [addEvent, ensureParticipant]⟩
  | some numbering => exact ⟨some d.nextNumber, by simp [addEvent, ensureParticipant]⟩

/-- How many blocks are open after all events, if each of them carries the right number. -/
def depth? (d : Diagram) : Option Nat := d.events.foldlM Event.depthAfter? 0

section

variable {d : Diagram} {depth : Nat}

theorem depth?_addEvent (event : Event) {after : Nat} (h : d.depth? = some depth)
    (e : event.depthAfter? depth = some after) : (d.addEvent event).depth? = some after := by
  rw [depth?] at h
  rw [depth?, addEvent, List.foldlM_append, h]
  show event.depthAfter? depth >>= pure = _
  rw [e]
  rfl

theorem depth?_addMessage (h : d.depth? = some depth) (m : Message) :
    (d.addMessage { m with depth }).depth? = some depth := by
  obtain ⟨number, e⟩ := d.exists_events_addMessage { m with depth }
  rw [depth?, e]
  exact depth?_addEvent _ h (if_pos rfl)

end

mutual

/-- A statement closes the blocks that it opens. -/
theorem depth?_apply {depth : Nat} {d : Diagram} (h : d.depth? = some depth) : ∀ s : Statement,
    (d.apply depth s).depth? = some depth
  | .caption _ | .participant _ | .numbering _ => h
  | .message m none => depth?_addMessage h m
  | .message m (some .start) | .message m (some .stop) => depth?_addEvent _ (depth?_addMessage h m) rfl
  | .activate _ | .deactivate _ | .note _ => depth?_addEvent _ h rfl
  | .block kind label body branches =>
    have opened := depth?_addEvent (.blockStart kind label depth) h (if_pos rfl)
    have inside := depth?_applyBranches (depth?_applyAll opened body) branches
    depth?_addEvent _ inside (if_pos rfl)

theorem depth?_applyAll {depth : Nat} {d : Diagram} (h : d.depth? = some depth) : ∀ body : List Statement,
    (d.applyAll depth body).depth? = some depth
  | [] => h
  | s :: rest => depth?_applyAll (depth?_apply h s) rest

/-- Further branches leave the block open. -/
theorem depth?_applyBranches {depth : Nat} {d : Diagram} (h : d.depth? = some (depth + 1)) :
    ∀ branches : List Branch, (d.applyBranches depth branches).depth? = some (depth + 1)
  | [] => h
  | .mk kind label body :: rest =>
    have branched := depth?_addEvent (.blockBranch kind label depth) h (if_pos rfl)
    depth?_applyBranches (depth?_applyAll branched body) rest

end

end Diagram

/-! ## Courses -/

/-- A message without the depth and the number that a diagram gives it. -/
def Message.bare (m : Message) : Message := { m with depth := 0, number := none }

/-- The activation that the sign on the arrow of a message stands for. -/
def Message.activation (m : Message) : Option Activation → List Statement
  | none => []
  | some .start => [.activate m.target]
  | some .stop => [.deactivate m.source]

mutual

/-- What a statement tells: messages, activations, notes and blocks of these. -/
def Statement.course : Statement → List Statement
  | .caption _ | .participant _ | .numbering _ => []
  | .message m activation => .message m.bare none :: m.activation activation
  | .activate id => [.activate id]
  | .deactivate id => [.deactivate id]
  | .note n => [.note n]
  | .block kind label body branches => [.block kind label (courseAll body) (courseBranches branches)]

/-- What statements tell. -/
def courseAll : List Statement → List Statement
  | [] => []
  | s :: rest => s.course ++ courseAll rest

/-- What branches of a block tell. -/
def courseBranches : List Branch → List Branch
  | [] => []
  | .mk kind label body :: rest => .mk kind label (courseAll body) :: courseBranches rest

end

/-- A block that is open: the course before it, the parts of it that are over, and the kind and the label of
the part that is not. -/
structure OpenBlock where
  before : List Statement
  parts : List Branch
  kind : BlockKind
  label : String

/-- An outline of events: the course of the innermost part, and the blocks that are open around it. -/
structure Outline where
  course : List Statement := []
  opened : List OpenBlock := []

/-- The block that consists of some parts, of which the first one is not a branch. -/
def blockOf : List Branch → List Statement
  | [] => []
  | .mk kind label body :: branches => [.block kind label body branches]

namespace Outline

/-- The outline where the innermost part goes on. -/
def add (o : Outline) (more : List Statement) : Outline := { o with course := o.course ++ more }

theorem add_nil (o : Outline) : o.add [] = o := by
  rw [add, List.append_nil]

theorem add_add (o : Outline) (more others : List Statement) : (o.add more).add others = o.add (more ++ others) := by
  rw [add, add, add, List.append_assoc]

/-- The parts of an open block when its current part ends with a course. -/
def partsOf (b : OpenBlock) (course : List Statement) : List Branch := b.parts ++ [.mk b.kind b.label course]

/-- The outline after an event. What carries no open block with it is passed over. -/
def after (o : Outline) : Event → Outline
  | .message m => o.add [.message m.bare none]
  | .activate id => o.add [.activate id]
  | .deactivate id => o.add [.deactivate id]
  | .note n => o.add [.note n]
  | .blockStart kind label _ => ⟨[], ⟨o.course, [], kind, label⟩ :: o.opened⟩
  | .blockBranch kind label _ =>
    match o.opened with
    | [] => o
    | b :: outer => ⟨[], ⟨b.before, partsOf b o.course, kind, label⟩ :: outer⟩
  | .blockEnd _ =>
    match o.opened with
    | [] => o
    | b :: outer => ⟨b.before ++ blockOf (partsOf b o.course), outer⟩

/-- The outline of events. -/
def ofEvents (events : List Event) : Outline := events.foldl after {}

end Outline

/-- The course that is read off events. -/
def courseOf (events : List Event) : List Statement := (Outline.ofEvents events).course

namespace Diagram

/-- The outline of a diagram. -/
def outline (d : Diagram) : Outline := .ofEvents d.events

section

variable (d : Diagram)

theorem outline_addEvent (event : Event) : (d.addEvent event).outline = d.outline.after event := by
  rw [outline, outline, Outline.ofEvents, addEvent, List.foldl_append]
  rfl

theorem outline_addMessage (m : Message) : (d.addMessage m).outline = d.outline.add [.message m.bare none] := by
  obtain ⟨number, e⟩ := d.exists_events_addMessage m
  rw [outline, e, ← outline, outline_addEvent]
  rfl

end

mutual

/-- A statement adds its course to the innermost part. -/
theorem outline_apply (depth : Nat) (d : Diagram) : ∀ s : Statement,
    (d.apply depth s).outline = d.outline.add s.course
  | .caption _ | .participant _ | .numbering _ => d.outline.add_nil.symm
  | .message m none => d.outline_addMessage { m with depth }
  | .message m (some .start) | .message m (some .stop) => by
    rw [apply, outline_addEvent, outline_addMessage]
    exact d.outline.add_add _ _
  | .activate _ | .deactivate _ | .note _ => d.outline_addEvent _
  | .block kind label body branches => by
    have opened : (applyAll (depth + 1) (d.addEvent (.blockStart kind label depth)) body).outline =
        ⟨courseAll body, ⟨d.outline.course, [], kind, label⟩ :: d.outline.opened⟩ := by
      rw [outline_applyAll, outline_addEvent]
      rfl
    rw [apply, outline_addEvent, outline_applyBranches depth opened branches]
    rfl

theorem outline_applyAll (depth : Nat) (d : Diagram) : ∀ body : List Statement,
    (d.applyAll depth body).outline = d.outline.add (courseAll body)
  | [] => d.outline.add_nil.symm
  | s :: rest => by
    rw [applyAll, outline_applyAll depth _ rest, outline_apply depth d s, Outline.add_add]
    rfl

/-- When a block ends, its further branches are the last of its parts. -/
theorem outline_applyBranches (depth : Nat) {d : Diagram} {course : List Statement} {b : OpenBlock}
    {outer : List OpenBlock} (h : d.outline = ⟨course, b :: outer⟩) : ∀ branches : List Branch,
    (d.applyBranches depth branches).outline.after (.blockEnd depth) =
      ⟨b.before ++ blockOf (Outline.partsOf b course ++ courseBranches branches), outer⟩
  | [] => by
    rw [applyBranches, h, courseBranches, List.append_nil]
    rfl
  | .mk kind label body :: rest => by
    have branched : (applyAll (depth + 1) (d.addEvent (.blockBranch kind label depth)) body).outline =
        ⟨courseAll body, ⟨b.before, Outline.partsOf b course, kind, label⟩ :: outer⟩ := by
      rw [outline_applyAll, outline_addEvent, h]
      rfl
    rw [applyBranches, outline_applyBranches depth branched rest]
    simp [Outline.partsOf, courseBranches]

end

theorem courseOf_applyAll (body : List Statement) : courseOf (applyAll 0 {} body).events = courseAll body :=
  congrArg Outline.course (outline_applyAll 0 {} body)

end Diagram

/-! ## Events of courses -/

/-- An event without the number of a message. -/
def Event.unnumbered : Event → Event
  | .message m => .message { m with number := none }
  | event => event

/-- Numbers of messages do not matter for the course. -/
theorem courseOf_unnumbered (events : List Event) : courseOf (events.map Event.unnumbered) = courseOf events := by
  have same (o : Outline) (event : Event) : o.after event.unnumbered = o.after event := by
    cases event <;> rfl
  rw [courseOf, courseOf, Outline.ofEvents, Outline.ofEvents, List.foldl_map]
  simp only [same]

namespace Diagram

/-- The events without the numbers of messages. -/
def unnumbered (d : Diagram) : List Event := d.events.map Event.unnumbered

section

variable {d d' : Diagram}

theorem unnumbered_addEvent (h : d'.unnumbered = d.unnumbered) (event event' : Event)
    (e : event'.unnumbered = event.unnumbered) :
    (d'.addEvent event').unnumbered = (d.addEvent event).unnumbered := by
  rw [unnumbered, unnumbered] at h ⊢
  rw [addEvent, addEvent, List.map_append, List.map_append, h, List.map_singleton, List.map_singleton, e]

theorem unnumbered_addMessage (h : d'.unnumbered = d.unnumbered) (m m' : Message)
    (e : { m' with number := none } = { m with number := none }) :
    (d'.addMessage m').unnumbered = (d.addMessage m).unnumbered := by
  obtain ⟨number, events⟩ := d.exists_events_addMessage m
  obtain ⟨number', events'⟩ := d'.exists_events_addMessage m'
  have added := unnumbered_addEvent h (.message { m with number })
    (.message { m' with number := number' }) (congrArg Event.message e)
  rw [unnumbered, unnumbered] at added ⊢
  rw [events, events', added]

theorem applyAll_append (depth : Nat) (d : Diagram) (body more : List Statement) :
    d.applyAll depth (body ++ more) = (d.applyAll depth body).applyAll depth more := by
  induction body generalizing d with
  | nil => rfl
  | cons s rest ih => exact ih (d.apply depth s)

end

mutual

/-- The course of a statement makes the events that the statement makes. -/
theorem unnumbered_apply (depth : Nat) {d d' : Diagram} (h : d'.unnumbered = d.unnumbered) : ∀ s : Statement,
    (d'.applyAll depth s.course).unnumbered = (d.apply depth s).unnumbered
  | .caption _ | .participant _ | .numbering _ => h
  | .message _ none => unnumbered_addMessage h _ _ rfl
  | .message m (some .start) | .message m (some .stop) =>
    have sent := unnumbered_addMessage h { m with depth } { m.bare with depth } rfl
    unnumbered_addEvent sent _ _ rfl
  | .activate _ | .deactivate _ | .note _ => unnumbered_addEvent h _ _ rfl
  | .block _ _ body branches =>
    have opened := unnumbered_addEvent h _ _ rfl
    have inside := unnumbered_applyBranches depth (unnumbered_applyAll (depth + 1) opened body) branches
    unnumbered_addEvent inside _ _ rfl

theorem unnumbered_applyAll (depth : Nat) {d d' : Diagram} (h : d'.unnumbered = d.unnumbered) :
    ∀ body : List Statement,
      (d'.applyAll depth (courseAll body)).unnumbered = (d.applyAll depth body).unnumbered
  | [] => h
  | s :: rest => by
    rw [courseAll, applyAll_append]
    exact unnumbered_applyAll depth (unnumbered_apply depth h s) rest

theorem unnumbered_applyBranches (depth : Nat) {d d' : Diagram} (h : d'.unnumbered = d.unnumbered) :
    ∀ branches : List Branch,
      (d'.applyBranches depth (courseBranches branches)).unnumbered = (d.applyBranches depth branches).unnumbered
  | [] => h
  | .mk _ _ body :: rest =>
    have branched := unnumbered_addEvent h _ _ rfl
    unnumbered_applyBranches depth (unnumbered_applyAll (depth + 1) branched body) rest

end

end Diagram

/-- Statements whose events agree, but for the numbers of messages, tell the same. -/
theorem courseAll_eq {body other : List Statement}
    (h : (Diagram.applyAll 0 {} other).unnumbered = (Diagram.applyAll 0 {} body).unnumbered) :
    courseAll other = courseAll body := by
  rw [← Diagram.courseOf_applyAll, ← Diagram.courseOf_applyAll, ← courseOf_unnumbered, ← Diagram.unnumbered, h,
    Diagram.unnumbered, courseOf_unnumbered]

/-- The events of statements are well bracketed, and the course of the statements is read off them. It is
the only course that has these events, but for the numbers of messages. -/
theorem events_applyAll (body : List Statement) :
    (Diagram.applyAll 0 {} body).events.foldlM Event.depthAfter? 0 = some 0 ∧
      courseOf (Diagram.applyAll 0 {} body).events = courseAll body ∧
      ∃! course, courseAll course = course ∧
        (Diagram.applyAll 0 {} course).unnumbered = (Diagram.applyAll 0 {} body).unnumbered := by
  have same : (Diagram.applyAll 0 {} (courseAll body)).unnumbered = (Diagram.applyAll 0 {} body).unnumbered :=
    Diagram.unnumbered_applyAll 0 rfl body
  refine ⟨Diagram.depth?_applyAll rfl body, Diagram.courseOf_applyAll body, courseAll body,
    ⟨courseAll_eq same, same⟩, ?_⟩
  rintro course ⟨isCourse, h⟩
  rw [← isCourse, courseAll_eq h]

/-- A message with a sign on its arrow, in the second part of a block. -/
example :
    courseOf (Diagram.applyAll 0 {}
      [.participant { id := "a", label := "Alice" },
        .block .alt "" [] [.mk .else "late" [.message { source := "a", target := "b", label := "hi" } (some .start)]]]
      ).events =
    [.block .alt "" []
      [.mk .else "late" [.message { source := "a", target := "b", label := "hi" } none, .activate "b"]]] := by
  rfl

end DiagramText.Sequence
