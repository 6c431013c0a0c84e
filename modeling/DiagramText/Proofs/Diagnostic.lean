import DiagramText.Diagnostic
import DiagramText.Proofs.Peg.LineEnds
import DiagramText.Proofs.Peg.Spans
import DiagramText.Reading
import Mathlib.Algebra.GroupWithZero.Nat
import Mathlib.Data.Nat.Find

/-!
# Places of failures

A failure is reported at a byte, which may lie inside a character or behind the text. The last boundary between
characters that is not behind it (`boundary`) is where the characters before the failure end (`byteSize_charsBefore`).
The offset, the line and the column of a diagnostic are counted along these characters. Every line feed among them ends
a line, and what follows the last one is the part of the line that stands before the column (`lines_through`). So the
line and the column lead back to the boundary (`offsetAt?_locate`), and they depend on nothing behind it
(`charsBefore_of_append`). `locate_exact` says all that a diagnostic tells of its place.
-/

namespace DiagramText

open Peg

/-! ## Boundaries -/

section

variable {source part rest : String}

theorem atBoundary_iff {offset : Nat} :
    AtBoundary source offset ↔ ∃ before, before <+: source.toList ∧ Chars.byteSize before = offset := by
  constructor
  · rintro ⟨before, after, rfl, rfl⟩
    exact ⟨before.toList, by simp, Chars.byteSize_toList before⟩
  · rintro ⟨before, ⟨after, h⟩, rfl⟩
    refine ⟨String.ofList before, String.ofList after, ?_, (Chars.utf8ByteSize_ofList before).symm⟩
    rw [← String.ofList_append, h, String.ofList_toList]

theorem charsBefore_isPrefix (source : String) (offset : Nat) : charsBefore source offset <+: source.toList :=
  Chars.takeBytes_isPrefix _ _

/-- The start of a text that takes as many bytes as the offset says. -/
theorem atBoundary_iff_byteSize {offset : Nat} :
    AtBoundary source offset ↔ Chars.byteSize (charsBefore source offset) = offset := by
  refine atBoundary_iff.trans ⟨?_, fun h => ⟨_, charsBefore_isPrefix _ _, h⟩⟩
  rintro ⟨before, ⟨after, h⟩, rfl⟩
  rw [charsBefore, ← h, Chars.takeBytes_append]

instance : DecidablePred (AtBoundary source) := fun _ => decidable_of_iff _ atBoundary_iff_byteSize.symm

/-- The offset, or the end of the text if that is before it, moved back until no character lies across it. -/
def boundary (source : String) (offset : Nat) : Nat :=
  Nat.findGreatest (AtBoundary source) (min offset source.utf8ByteSize)

/-- The characters before an offset end at its boundary. -/
theorem byteSize_charsBefore (source : String) (offset : Nat) :
    Chars.byteSize (charsBefore source offset) = boundary source offset := by
  have isBoundary := atBoundary_iff.2 ⟨_, charsBefore_isPrefix source offset, rfl⟩
  refine (Nat.findGreatest_eq_iff.2 ⟨?_, fun _ => isBoundary, fun n greater inside other => ?_⟩).symm
  · exact Nat.le_min.2 ⟨Chars.byteSize_takeBytes_le _ _, isBoundary.le⟩
  · rw [atBoundary_iff_byteSize] at other
    obtain ⟨more, h⟩ := Chars.takeBytes_prefix_of_le (Nat.le_min.1 inside).1 source.toList
    have sizes := congrArg Chars.byteSize h
    rw [Chars.byteSize_append] at sizes
    rw [charsBefore] at other greater
    omega

theorem charsBefore_boundary (source : String) (offset : Nat) :
    charsBefore source (boundary source offset) = charsBefore source offset := by
  obtain ⟨behind, e⟩ := charsBefore_isPrefix source offset
  rw [charsBefore, ← byteSize_charsBefore, ← e, Chars.takeBytes_append]

theorem Chars.takeBytes_append_of_le {n : Nat} {as bs : List Char}
    (h : byteSize (takeBytes n (as ++ bs)) ≤ byteSize as) : takeBytes n (as ++ bs) = takeBytes n as := by
  induction as generalizing n with
  | nil => exact byteSize_eq_zero.1 (Nat.le_zero.1 h)
  | cons a as ih =>
    rw [List.cons_append, takeBytes] at h ⊢
    rw [takeBytes]
    split
    · rename_i fits
      rw [if_pos fits, byteSize_cons, byteSize_cons, Nat.add_le_add_iff_left] at h
      rw [ih h]
    · rfl

/-- A start of the text that holds the boundary has the same characters before it. -/
theorem charsBefore_of_append {offset : Nat} (h : boundary (part ++ rest) offset ≤ part.utf8ByteSize) :
    charsBefore part offset = charsBefore (part ++ rest) offset := by
  rw [← byteSize_charsBefore, charsBefore, String.toList_append, ← Chars.byteSize_toList] at h
  rw [charsBefore, charsBefore, String.toList_append, Chars.takeBytes_append_of_le h]

end

/-! ## Lines and columns -/

/-- The offset of the place with a line and a column, which are counted from one. -/
def offsetAt? (source : String) : Nat → Nat → Option Nat
  | line + 1, column + 1 => do
    let texts := splitOnChar source '\n'
    let text ← texts[line]?
    if column ≤ text.length then
      some (((texts.take line).map (·.utf8ByteSize + 1)).sum + Chars.byteSize (text.toList.take column))
    else none
  | _, _ => none

namespace Diagnostic

theorem lastLine_of_not_mem {cs : List Char} (h : '\n' ∉ cs) : lastLine cs = cs := by
  rw [lastLine, List.takeWhile_eq_self_iff.2, List.reverse_reverse]
  exact fun c hc => bne_iff_ne.2 fun e => h (List.mem_reverse.1 (e ▸ hc))

theorem lastLine_append_feed (line rest : List Char) : lastLine (line ++ '\n' :: rest) = lastLine rest := by
  have stop : (rest.reverse ++ '\n' :: line.reverse).takeWhile (· != '\n') = rest.reverse.takeWhile (· != '\n') := by
    induction rest.reverse with
    | nil => rfl
    | cons c cs ih => rw [List.cons_append, List.takeWhile_cons, ih, List.takeWhile_cons]
  rw [lastLine, List.reverse_append, List.reverse_cons, List.append_assoc, List.singleton_append, stop, lastLine]

/-- As many lines end before a place as there are line feeds, and what follows the last of these is the part of its
line before the place. -/
theorem lines_through (before after : List Char) :
    let texts := Chars.splitBy (· == '\n') (before ++ after)
    texts[before.count '\n']? = some (lastLine before ++ after.takeWhile (· != '\n')) ∧
      ((texts.take (before.count '\n')).map (Chars.byteSize · + 1)).sum + Chars.byteSize (lastLine before) =
        Chars.byteSize before := by
  -- The induction takes the first line off what stands before the place.
  induction feeds : before.count '\n' generalizing before with
  | zero =>
    have free := List.count_eq_zero.1 feeds
    have keep : ∀ c ∈ before, (c != '\n') = true := fun c hc => bne_iff_ne.2 fun e => free (e ▸ hc)
    refine ⟨?_, by simp [lastLine_of_not_mem free]⟩
    rw [← List.head?_eq_getElem?, Chars.head?_splitBy, lastLine_of_not_mem free, ← List.takeWhile_append_of_pos keep]
    rfl
  | succ n ih =>
    have some : '\n' ∈ before := List.count_pos_iff.1 (by omega)
    obtain ⟨line, rest, rfl, free⟩ := List.eq_append_cons_of_mem some
    have hfree : ∀ c ∈ line, (c == '\n') = false := fun c hc => beq_eq_false_iff_ne.2 fun e => free (e ▸ hc)
    have fewer : rest.count '\n' = n := by
      simpa [List.count_append, List.count_eq_zero.2 free] using feeds
    obtain ⟨found, sizes⟩ := ih rest fewer
    rw [List.append_assoc, List.cons_append, Chars.splitBy_append_cons hfree rfl, lastLine_append_feed]
    refine ⟨by simpa using found, ?_⟩
    simp only [List.take_succ_cons, List.map_cons, List.sum_cons, Chars.byteSize_append, Chars.byteSize_cons]
    have : '\n'.utf8Size = 1 := rfl
    omega

variable (kind : Kind) (source : String) (failure : Failure)

/-- The line of a diagnostic is the one that the boundary stands in. -/
theorem getElem?_splitOnChar_locate {after : List Char}
    (h : source.toList = charsBefore source failure.offset ++ after) :
    (splitOnChar source '\n')[(locate kind source failure).line - 1]? =
      some (String.ofList (lastLine (charsBefore source failure.offset) ++ after.takeWhile (· != '\n'))) := by
  simp only [splitOnChar, locate, Nat.add_sub_cancel, List.getElem?_map, h, (lines_through _ after).1, Option.map_some]

/-- The line and the column lead back to the boundary. -/
theorem offsetAt?_locate :
    offsetAt? source (locate kind source failure).line (locate kind source failure).column =
      some (boundary source failure.offset) := by
  obtain ⟨after, h⟩ := charsBefore_isPrefix source failure.offset
  have found := getElem?_splitOnChar_locate kind source failure h.symm
  have sizes := (lines_through (charsBefore source failure.offset) after).2
  rw [h, byteSize_charsBefore] at sizes
  simp only [locate, Nat.add_sub_cancel] at found
  simp only [locate, offsetAt?, found, Option.bind_eq_bind, Option.bind_some, String.length_ofList,
    String.toList_ofList, List.length_append, Nat.le_add_right, if_true, List.take_left]
  simpa [splitOnChar, List.map_take, Function.comp_def, Chars.utf8ByteSize_ofList] using sizes

/-- The text of a diagnostic is its line but for the carriage returns at the end, unless nothing is left of the line
and the failure lies behind the text. -/
theorem sourceLine_locate : ∃ line returns : String,
    (splitOnChar source '\n')[(locate kind source failure).line - 1]? = some (line ++ returns) ∧
      (∀ c ∈ returns.toList, c = '\r') ∧ line.toList.getLast? ≠ some '\r' ∧
      (locate kind source failure).sourceLine =
        if boundary source failure.offset = source.utf8ByteSize ∧ line = "" then "(end of input)" else line := by
  obtain ⟨after, h⟩ := charsBefore_isPrefix source failure.offset
  have found := getElem?_splitOnChar_locate kind source failure h.symm
  set text := lastLine (charsBefore source failure.offset) ++ after.takeWhile (· != '\n') with htext
  obtain ⟨returns, e, hreturns⟩ := Chars.exists_append_trimEndBy (· == '\r') text
  have atEnd : boundary source failure.offset = source.utf8ByteSize ↔ after = [] := by
    rw [← byteSize_charsBefore, ← Chars.byteSize_toList, ← h, Chars.byteSize_append, Nat.left_eq_add,
      Chars.byteSize_eq_zero]
  refine ⟨String.ofList (Chars.trimEndBy (· == '\r') text), String.ofList returns, ?_, ?_, ?_, ?_⟩
  · rw [found, ← String.ofList_append, ← e]
  · simpa using hreturns
  · have kept := Chars.trimEndBy_eq_self_iff.1 (List.rdropWhile_idempotent (· == '\r') text)
    intro last
    rw [String.toList_ofList] at last
    simpa using kept _ last
  · have behind : source.toList.drop (charsBefore source failure.offset).length = after := by
      rw [← h, List.drop_left]
    simp only [locate, behind, ← htext, atEnd, String.ofList_eq_empty_iff, Bool.and_eq_true, List.isEmpty_iff, and_comm]

/-- A diagnostic counts the characters before the boundary, and its line and column lead back to the boundary. Its text
is that line without the carriage returns at the end, or says that the text ends if nothing is there. A fault at the
same offset is placed alike, and so is the failure in a start of the text that holds the boundary. -/
theorem locate_exact (kind : Kind) (source : String) (failure : Failure) :
    let d := locate kind source failure
    let b := boundary source failure.offset
    (∃ before after, source = before ++ after ∧ before.utf8ByteSize = b ∧ d.offset = before.length) ∧
      offsetAt? source d.line d.column = some b ∧
      (∃ line returns : String, (splitOnChar source '\n')[d.line - 1]? = some (line ++ returns) ∧
        (∀ c ∈ returns.toList, c = '\r') ∧ line.toList.getLast? ≠ some '\r' ∧
        d.sourceLine = if b = source.utf8ByteSize ∧ line = "" then "(end of input)" else line) ∧
      (∀ {ε : Type} (fault : Fault ε), fault.offset = some failure.offset →
        fault.charOffset? source = some d.offset) ∧
      ∀ part rest, source = part ++ rest → b ≤ part.utf8ByteSize →
        ∀ failure' : Failure, failure'.offset = failure.offset ∨ failure'.offset = b →
          let d' := locate kind part failure'
          d'.offset = d.offset ∧ d'.line = d.line ∧ d'.column = d.column := by
  refine ⟨?_, offsetAt?_locate kind source failure, sourceLine_locate kind source failure, ?_, ?_⟩
  · obtain ⟨after, h⟩ := charsBefore_isPrefix source failure.offset
    refine ⟨String.ofList (charsBefore source failure.offset), String.ofList after, ?_, ?_, String.length_ofList.symm⟩
    · rw [← String.ofList_append, h, String.ofList_toList]
    · rw [Chars.utf8ByteSize_ofList, byteSize_charsBefore]
  · intro ε fault h
    rw [Fault.charOffset?, h]
    rfl
  · rintro part rest rfl holds failure' same
    have before : charsBefore (part ++ rest) failure'.offset = charsBefore (part ++ rest) failure.offset := by
      obtain same | same := same
      · rw [same]
      · rw [same, charsBefore_boundary]
    have holds' : boundary (part ++ rest) failure'.offset ≤ part.utf8ByteSize := by
      rwa [← byteSize_charsBefore, before, byteSize_charsBefore]
    simp only [locate, charsBefore_of_append holds', before, and_self]

/-- An offset inside a character of the second line, behind a carriage return and a line feed. -/
theorem locate_exact_inside_character :
    let source := "é\r\nß"
    let d := locate .pie source ⟨5, []⟩
    let d' := locate .pie "é\r\n" ⟨5, []⟩
    boundary source 5 = 4 ∧ d.offset = 3 ∧ offsetAt? source d.line d.column = some 4 ∧
      Fault.charOffset? (⟨some 5, .missing "" ""⟩ : Fault Empty) source = some d.offset ∧
      d'.offset = d.offset ∧ d'.line = d.line ∧ d'.column = d.column := by
  intro source d d'
  have here : boundary source 5 = 4 := by decide
  obtain ⟨-, place, -, faults, starts⟩ := locate_exact .pie source ⟨5, []⟩
  rw [here] at place
  exact ⟨here, by decide, place, faults _ rfl, starts "é\r\n" "ß" rfl (by decide) _ (.inl rfl)⟩

end Diagnostic

end DiagramText
