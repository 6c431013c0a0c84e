import DiagramText.Proofs.Text.Blank
import DiagramText.Text.Offset

/-!
# Lines with content

A line of a text is idle if it holds nothing but spaces, tabs and a comment, and has content otherwise. Behind
the last line feed there may be a line that nothing ends; one that is a comment is loose. `bodyLines` has the
lines with content and a loose comment behind them, which a body of lines takes for one.

Each notion is told for a line in front of a text, whatever ends it (`bodyLines_append_ending`), and for a line
that is not ended (`bodyLines_of_not_mem`).
-/

namespace DiagramText.Chars

/-- The spaces and tabs that a line starts with. -/
def indentation (line : List Char) : List Char := line.takeWhile [' ', '\t'].contains

/-- What stands behind the indentation of a line. -/
def unindented (line : List Char) : List Char := line.dropWhile [' ', '\t'].contains

/-- Whether a line is a comment, which spaces and tabs may precede. -/
def isComment (line : List Char) : Bool := "%%".toList.isPrefixOf (unindented line)

/-- Whether a line holds nothing but spaces, tabs and a comment. -/
def isIdle (line : List Char) : Bool := (unindented line).isEmpty || isComment line

/-- The lines of a text that are neither blank nor comments. -/
def contentLines (cs : List Char) : List (List Char) := (lines cs).filter (!isIdle ·)

/-- The comment behind the last line feed of a text. -/
def looseComment? (cs : List Char) : Option (List Char) :=
  (splitBy (· == '\n') cs).getLast?.filter isComment

/-- The lines with content, and a comment that no line feed ends. -/
def bodyLines (cs : List Char) : List (List Char) := contentLines cs ++ (looseComment? cs).toList

/-- The pieces between line feeds without their ends, each with the offset at which it starts. -/
def placed (offset : Nat) : List (List Char) → List (Nat × List Char)
  | [] => []
  | [last] => [(offset, last)]
  | piece :: more => (offset, withoutReturn piece) :: placed (offset + byteSize piece + 1) more

/-- The lines of a text at an offset, each with the offset at which it starts. The line behind the last line feed is one
of them, even if it is empty. -/
def placedLines (offset : Nat) (cs : List Char) : List (Nat × List Char) := placed offset (splitBy (· == '\n') cs)

/-- The lines that are neither blank nor comments, and where they start. -/
def placedContent (offset : Nat) (cs : List Char) : List (Nat × List Char) :=
  (placedLines offset cs).filter (!isIdle ·.2)

/-- The comment behind the last line feed of a text, and where it starts. -/
def placedComment? (offset : Nat) (cs : List Char) : Option (Nat × List Char) :=
  (placedLines offset cs).getLast?.filter (isComment ·.2)

/-- The lines with content, and a comment that no line feed ends, and where they start. -/
def placedBody (offset : Nat) (cs : List Char) : List (Nat × List Char) :=
  placedContent offset cs ++ (placedComment? offset cs).toList

section

variable {line blanks text ending : List Char}

theorem indentation_append_unindented (line : List Char) : indentation line ++ unindented line = line :=
  List.takeWhile_append_dropWhile

theorem blank_of_mem_indentation : ∀ c ∈ indentation line, c = ' ' ∨ c = '\t' := by
  intro c hc
  simpa using List.all_eq_true.1 List.all_takeWhile c hc

theorem head_unindented : ∀ c ∈ (unindented line).head?, c ≠ ' ' ∧ c ≠ '\t' := by
  intro c hc
  have := List.head?_dropWhile_not [' ', '\t'].contains line
  rw [show line.dropWhile [' ', '\t'].contains = unindented line from rfl, Option.mem_def.1 hc] at this
  simpa using this

/-- Blanks in front of something else are the indentation. -/
theorem indentation_append (hb : ∀ c ∈ blanks, c = ' ' ∨ c = '\t') (ht : ∀ c ∈ text.head?, c ≠ ' ' ∧ c ≠ '\t') :
    indentation (blanks ++ text) = blanks ∧ unindented (blanks ++ text) = text := by
  have keep : ∀ c ∈ blanks, [' ', '\t'].contains c = true := by simpa using hb
  rw [indentation, unindented, List.takeWhile_append_of_pos keep, List.dropWhile_append_of_pos keep]
  cases text with
  | nil => exact ⟨List.append_nil blanks, rfl⟩
  | cons c text =>
    have stop : ¬ [' ', '\t'].contains c = true := by simpa using ht c rfl
    rw [List.takeWhile_cons_of_neg stop, List.dropWhile_cons_of_neg stop, List.append_nil]
    exact ⟨rfl, rfl⟩

/-- Blanks with a comment or without one are idle. -/
theorem isIdle_append (hb : ∀ c ∈ blanks, c = ' ' ∨ c = '\t')
    (hc : text = [] ∨ ∃ more, text = '%' :: '%' :: more) : isIdle (blanks ++ text) = true := by
  have stop : ∀ c ∈ text.head?, c ≠ ' ' ∧ c ≠ '\t' := by
    obtain rfl | ⟨more, rfl⟩ := hc
    · nofun
    · simp
  rw [isIdle, isComment, (indentation_append hb stop).2]
  obtain rfl | ⟨more, rfl⟩ := hc <;> rfl

/-- An idle line is made up of blanks and perhaps a comment. -/
theorem exists_of_isIdle (h : isIdle line = true) :
    unindented line = [] ∨ ∃ more, unindented line = '%' :: '%' :: more := by
  rw [isIdle, Bool.or_eq_true, List.isEmpty_iff] at h
  refine h.imp_right fun comment => ?_
  obtain ⟨more, e⟩ := List.isPrefixOf_iff_prefix.1 comment
  exact ⟨more, e.symm⟩

theorem isComment_of_unindented_nil (h : unindented line = []) : isComment line = false := by
  rw [isComment, h]
  rfl

/-! ## Ended lines -/

theorem contentLines_append_ending (h : ∀ c ∈ line, c ≠ '\r' ∧ c ≠ '\n')
    (he : ending = ['\n'] ∨ ending = ['\r', '\n']) (rest : List Char) :
    contentLines (line ++ (ending ++ rest)) = (if isIdle line then [] else [line]) ++ contentLines rest := by
  rw [contentLines, lines_append_ending h he, List.filter_cons, contentLines]
  cases isIdle line <;> rfl

theorem looseComment?_append_ending (h : ∀ c ∈ line, c ≠ '\r' ∧ c ≠ '\n')
    (he : ending = ['\n'] ∨ ending = ['\r', '\n']) (rest : List Char) :
    looseComment? (line ++ (ending ++ rest)) = looseComment? rest := by
  have feed {front : List Char} (h : '\n' ∉ front) : looseComment? (front ++ '\n' :: rest) = looseComment? rest := by
    have free : ∀ c ∈ front, (c == '\n') = false := fun c hc => beq_eq_false_iff_ne.2 fun e => h (e ▸ hc)
    rw [looseComment?, splitBy_append_cons free rfl, List.getLast?_cons_of_ne_nil (splitBy_ne_nil rest)]
    rfl
  obtain rfl | rfl := he
  · exact feed fun hc => (h _ hc).2 rfl
  · have free : '\n' ∉ line ++ ['\r'] := by
      rw [List.mem_append]
      exact fun hc => hc.elim (fun hc => (h _ hc).2 rfl) (by decide)
    simpa using feed free

theorem bodyLines_append_ending (h : ∀ c ∈ line, c ≠ '\r' ∧ c ≠ '\n')
    (he : ending = ['\n'] ∨ ending = ['\r', '\n']) (rest : List Char) :
    bodyLines (line ++ (ending ++ rest)) = (if isIdle line then [] else [line]) ++ bodyLines rest := by
  rw [bodyLines, contentLines_append_ending h he, looseComment?_append_ending h he, List.append_assoc, bodyLines]

/-! ## The last line -/

theorem contentLines_of_not_mem (h : '\n' ∉ line) : contentLines line = if isIdle line then [] else [line] := by
  by_cases hne : line = []
  · subst hne
    rfl
  · rw [contentLines, lines_of_not_mem h hne, List.filter_cons, List.filter_nil]
    cases isIdle line <;> rfl

theorem looseComment?_of_not_mem (h : '\n' ∉ line) :
    looseComment? line = if isComment line then some line else none := by
  have free : ∀ c ∈ line, (c == '\n') = false := fun c hc => beq_eq_false_iff_ne.2 fun e => h (e ▸ hc)
  rw [looseComment?, splitBy_of_not_mem free, List.getLast?_singleton, Option.filter_some]

/-- Of lines that are not ended only the blank ones say nothing. -/
theorem bodyLines_of_not_mem (h : '\n' ∉ line) : bodyLines line = if (unindented line).isEmpty then [] else [line] := by
  rw [bodyLines, contentLines_of_not_mem h, looseComment?_of_not_mem h, isIdle]
  cases hblank : (unindented line).isEmpty with
  | true =>
    rw [isComment_of_unindented_nil (List.isEmpty_iff.1 hblank)]
    rfl
  | false => cases isComment line <;> rfl

/-! ## Places of lines -/

theorem placedLines_ne_nil (offset : Nat) (cs : List Char) : placedLines offset cs ≠ [] := by
  rw [placedLines]
  match h : splitBy (· == '\n') cs with
  | [] => exact absurd h (splitBy_ne_nil cs)
  | [_] => nofun
  | _ :: _ :: _ => nofun

theorem placedLines_append_ending (h : ∀ c ∈ line, c ≠ '\r' ∧ c ≠ '\n')
    (he : ending = ['\n'] ∨ ending = ['\r', '\n']) (rest : List Char) (offset : Nat) :
    placedLines offset (line ++ (ending ++ rest)) =
      (offset, line) :: placedLines (offset + byteSize (line ++ ending)) rest := by
  have feed {front : List Char} (free : '\n' ∉ front) :
      placedLines offset (front ++ '\n' :: rest) =
        (offset, withoutReturn front) :: placedLines (offset + byteSize (front ++ ['\n'])) rest := by
    have free : ∀ c ∈ front, (c == '\n') = false := fun c hc => beq_eq_false_iff_ne.2 fun e => free (e ▸ hc)
    rw [placedLines, splitBy_append_cons free rfl, placedLines, byteSize_append]
    match h : splitBy (· == '\n') rest with
    | [] => exact absurd h (splitBy_ne_nil rest)
    | _ :: _ => rfl
  obtain rfl | rfl := he
  · have := feed fun hc => (h _ hc).2 rfl
    rwa [withoutReturn_of_not_mem fun hc => (h _ hc).1 rfl] at this
  · have free : '\n' ∉ line ++ ['\r'] := by
      rw [List.mem_append]
      exact fun hc => hc.elim (fun hc => (h _ hc).2 rfl) (by decide)
    have := feed free
    rwa [withoutReturn_concat, if_pos rfl, List.append_assoc, List.append_assoc] at this

theorem placedLines_of_not_mem (h : '\n' ∉ line) (offset : Nat) : placedLines offset line = [(offset, line)] := by
  have free : ∀ c ∈ line, (c == '\n') = false := fun c hc => beq_eq_false_iff_ne.2 fun e => h (e ▸ hc)
  rw [placedLines, splitBy_of_not_mem free]
  rfl

theorem placedBody_append_ending (h : ∀ c ∈ line, c ≠ '\r' ∧ c ≠ '\n')
    (he : ending = ['\n'] ∨ ending = ['\r', '\n']) (rest : List Char) (offset : Nat) :
    placedBody offset (line ++ (ending ++ rest)) =
      (if isIdle line then [] else [(offset, line)]) ++ placedBody (offset + byteSize (line ++ ending)) rest := by
  rw [placedBody, placedContent, placedComment?, placedLines_append_ending h he,
    List.getLast?_cons_of_ne_nil (placedLines_ne_nil _ _), List.filter_cons, placedBody, placedContent, placedComment?]
  cases isIdle line <;> rfl

/-- Of lines that are not ended only the blank ones say nothing. -/
theorem placedBody_of_not_mem (h : '\n' ∉ line) (offset : Nat) :
    placedBody offset line = if (unindented line).isEmpty then [] else [(offset, line)] := by
  rw [placedBody, placedContent, placedComment?, placedLines_of_not_mem h, List.getLast?_singleton, Option.filter_some,
    List.filter_cons, List.filter_nil, isIdle]
  cases hblank : (unindented line).isEmpty with
  | true =>
    rw [isComment_of_unindented_nil (List.isEmpty_iff.1 hblank)]
    rfl
  | false => cases isComment line <;> rfl

end

end DiagramText.Chars
