import DiagramText.Proofs.ClassDiagram.Associations
import DiagramText.Proofs.Sequence.Messages

/-!
# Documents of one statement

A message and an association are read back from the documents that consist of them
(`reads_lone_statement_iff`), whatever their names are, unless a keyword that need not be set off from what
follows it takes their line: that of a title, and in a sequence diagram that of numbering. A name overtakes a
statement even if it only begins with such a keyword (`exists_overtaken_message`).
-/

namespace DiagramText

/-- The words that statements of sequence diagrams start with. -/
def Sequence.keywords : List String :=
  ["participant", "actor", "activate", "deactivate", "note", "loop", "alt", "opt", "par", "critical", "break",
    "rect", "else", "and", "option", "end", "autonumber", "title", "accTitle", "accDescr"]

/-- A message and an association are the whole of what is read from their documents if and only if their lines
do not begin with a keyword that takes whatever follows it. -/
theorem reads_lone_statement_iff (options : ParseOptions) :
    (∀ m : Sequence.MessageLine,
      parseAs .all options .sequence m.document = .ok ⟨.sequence, m.diagram⟩ ↔ m.overtaken = false) ∧
    (∀ r : ClassDiagram.Association,
      parseAs .all options .classDiagram r.document = .ok ⟨.classDiagram, r.diagram⟩ ↔ r.overtaken = false) :=
  ⟨fun m => m.parseAs_iff options, fun r => r.parseAs_iff options⟩

/-- A message from `title.x` to `B`. -/
def Sequence.MessageLine.overtakenSample : Sequence.MessageLine where
  source := "title.x"
  token := "->>"
  arrow := ⟨.solid, .arrow⟩
  target := "B"
  label := "hi"
  isSource := ⟨by decide, by simp [Sequence.isParticipantChar, isAlphanumeric]⟩
  drawn := by decide
  isTarget := ⟨by decide, by simp [Sequence.isParticipantChar, isAlphanumeric]⟩
  trimmed := by decide
  inLine := by simp

/-- Neither id of the message is a keyword, and yet its document is read as one with a title and no message. -/
theorem exists_overtaken_message : ∃ m : Sequence.MessageLine,
    m.document = "sequenceDiagram\ntitle.x->>B: hi" ∧
    (∀ id ∈ [m.source, m.target], ∀ word ∈ Sequence.keywords,
      id.toList.map Char.toLower ≠ word.toList.map Char.toLower) ∧
    ∀ options, parseAs .all options .sequence m.document ≠ .ok ⟨.sequence, m.diagram⟩ :=
  ⟨.overtakenSample, by decide, by decide, fun options =>
    Sequence.MessageLine.parseAs_of_overtaken _ options (by decide)⟩

end DiagramText
