import DiagramText.Parse
import DiagramText.Proofs.Diagnostic
import DiagramText.Proofs.Peg.Quoted
import DiagramText.Proofs.Peg.Replace
import DiagramText.Proofs.Peg.Stuck

/-!
# Slices without a colon

A pie chart is read line by line, and a line which starts as a slice does but goes on with something else than a
colon is reported at that character (`stray_slice_located`): in its line, in its column, and with the colon as the
only thing expected there. Nothing else that was missed lies so far on: not in the header and not in the slices before
it, for these match and stretch no further than the ends of their lines (`SliceLine.stretch_round_lt`); nor at the
start of the line itself, where it is neither blank nor another statement nor the end of the input.
-/

namespace DiagramText.Pie

open Peg

variable {table : List (String × Rule)} {depth offset : Nat} {later : List Char}

/-! ## Numbers -/

/-- Digits, at least one. -/
def IsDigits (text : List Char) : Prop := text ≠ [] ∧ ∀ c ∈ text, '0' ≤ c ∧ c ≤ '9'

/-- Digits, digits with a fraction, or a fraction alone. -/
inductive IsAmount : List Char → Prop
  | whole {digits} (h : IsDigits digits) : IsAmount digits
  | decimal {digits fraction} (h : IsDigits digits) (hf : IsDigits fraction) : IsAmount (digits ++ '.' :: fraction)
  | fraction {fraction} (hf : IsDigits fraction) : IsAmount ('.' :: fraction)

/-- A number as it is written: an amount, perhaps with a sign in front of it. -/
def IsNumber (text : List Char) : Prop :=
  ∃ sign amount, text = sign ++ amount ∧ (sign = [] ∨ sign = ['+'] ∨ sign = ['-']) ∧ IsAmount amount

section

variable {text rest : List Char}

theorem IsDigits.takes (h : IsDigits text) (hstop : ∀ c ∈ rest.head?, ¬ ('0' ≤ c ∧ c ≤ '9')) :
    digits.Takes table depth text rest fun _ => .items [] := by
  refine takes_many1_chars h.1 (fun c hc => ?_) fun c hc => ?_
  · simpa [CharClass.contains] using h.2 c hc
  · simpa [CharClass.contains] using hstop c hc

theorem IsDigits.takes_point (h : IsDigits text) (hstop : ∀ c ∈ rest.head?, ¬ ('0' ≤ c ∧ c ≤ '9')) :
    (Rule.sequence [lit ".", digits]).Takes table depth ('.' :: text) rest fun _ => .fields [] := by
  have point : (lit ".").Takes table depth ['.'] (text ++ rest) fun _ => .empty := takes_lit "." _
  exact point.skip rfl ((h.takes hstop).skipLast rfl)

theorem IsAmount.head (h : IsAmount text) : ∃ c more, text = c :: more ∧ ('0' ≤ c ∧ c ≤ '9' ∨ c = '.') := by
  have first {digits : List Char} (h : IsDigits digits) : ∃ c more, digits = c :: more ∧ '0' ≤ c ∧ c ≤ '9' := by
    obtain ⟨c, more, rfl⟩ := List.exists_cons_of_ne_nil h.1
    exact ⟨c, more, rfl, h.2 c List.mem_cons_self⟩
  cases h with
  | whole h =>
    obtain ⟨c, more, rfl, hc⟩ := first h
    exact ⟨c, more, rfl, .inl hc⟩
  | decimal h _ =>
    obtain ⟨c, more, rfl, hc⟩ := first h
    exact ⟨c, _, rfl, .inl hc⟩
  | fraction _ => exact ⟨'.', _, rfl, .inr rfl⟩

theorem IsAmount.takes (h : IsAmount text) (hstop : ∀ c ∈ rest.head?, ¬ ('0' ≤ c ∧ c ≤ '9') ∧ c ≠ '.') :
    ∃ leaves, (Rule.choice [.sequence [digits, .optional (.sequence [lit ".", digits])],
      .sequence [lit ".", digits]]).Takes table depth text rest leaves := by
  have noDigit : ∀ c ∈ rest.head?, ¬ ('0' ≤ c ∧ c ≤ '9') := fun c hc => (hstop c hc).1
  cases h with
  | whole h =>
    have noPoint : (Rule.sequence [lit ".", digits]).Misses table depth rest := by
      refine (misses_lit ?_).sequence
      rintro ⟨more, rfl⟩
      exact (hstop '.' rfl).2 rfl
    exact ⟨_, ((h.takes noDigit).consNil noPoint.leaveOutLast).choice⟩
  | @decimal _ fraction h hf =>
    have before : ∀ c ∈ ('.' :: fraction ++ rest).head?, ¬ ('0' ≤ c ∧ c ≤ '9') := by
      rintro c ⟨⟩
      decide
    exact ⟨_, ((h.takes before).cons (hf.takes_point noDigit).optional.last).choice⟩
  | @fraction fraction hf =>
    have noWhole : digits.Misses table depth ('.' :: fraction ++ rest) := by
      refine misses_many1_chars ?_
      rintro c ⟨⟩
      rfl
    exact ⟨_, noWhole.sequence.choice (hf.takes_point noDigit).choice⟩

theorem IsAmount.head_ne (h : IsAmount text) {d : Char} (hdigit : ¬ ('0' ≤ d ∧ d ≤ '9')) (hpoint : d ≠ '.') :
    ∀ c ∈ text.head?, c ≠ d := by
  obtain ⟨c, more, rfl, hc⟩ := h.head
  rintro _ ⟨⟩ rfl
  exact hc.elim hdigit hpoint

/-- A number is taken up to a character that does not go on with it. -/
theorem IsNumber.takes (h : IsNumber text) (hstop : ∀ c ∈ rest.head?, ¬ ('0' ≤ c ∧ c ≤ '9') ∧ c ≠ '.') :
    ∃ leaves, number.Takes table depth text rest leaves := by
  obtain ⟨sign, amount, rfl, hsign, h⟩ := h
  obtain ⟨leaves, takes⟩ := @IsAmount.takes table depth _ _ h hstop
  obtain ⟨_, signOn⟩ : ∃ leaves, (Rule.optional (oneOf "+-")).Takes table depth sign (amount ++ rest) leaves := by
    obtain rfl | rfl | rfl := hsign
    · refine ⟨_, Rule.Misses.optional (misses_char fun c hc => ?_)⟩
      obtain ⟨first, more, rfl, -⟩ := h.head
      have plus := h.head_ne (d := '+') (by decide) (by decide) c hc
      have minus := h.head_ne (d := '-') (by decide) (by decide) c hc
      simp [CharClass.contains, plus, minus]
    · exact ⟨_, (takes_char rfl _).optional⟩
    · exact ⟨_, (takes_char rfl _).optional⟩
  exact ⟨_, (signOn.cons takes.last).labelled "number"⟩

theorem IsNumber.inked (h : IsNumber text) : Inked text := by
  obtain ⟨sign, amount, rfl, rfl | rfl | rfl, h⟩ := h
  · obtain ⟨c, more, rfl, -⟩ := h.head
    refine ⟨c, rfl, fun hmem => ?_⟩
    have bare : ∀ d ∈ [' ', '\t', '\r', '\n', '%'], ¬ ('0' ≤ d ∧ d ≤ '9') ∧ d ≠ '.' := by decide
    exact h.head_ne (bare c hmem).1 (bare c hmem).2 c rfl rfl
  · exact ⟨'+', rfl, by decide⟩
  · exact ⟨'-', rfl, by decide⟩

end

/-! ## Lines -/

/-- What a slice has in front of its colon: a label between quotes, with spaces and tabs around it. -/
structure SliceStart where
  indent : List Char
  body : List Char
  gap : List Char
  indent_blank : ∀ c ∈ indent, c = ' ' ∨ c = '\t'
  body_escaped : Escaped body
  gap_blank : ∀ c ∈ gap, c = ' ' ∨ c = '\t'

/-- The label with its quotes. -/
def SliceStart.quoted (l : SliceStart) : List Char := '"' :: (l.body ++ ['"'])

/-- The characters in front of the colon. -/
def SliceStart.text (l : SliceStart) : List Char := l.indent ++ (l.quoted ++ l.gap)

/-- The line of a slice: its label, a colon, its number, and the end of the line. -/
structure SliceLine extends SliceStart where
  space : List Char
  value : List Char
  ending : List Char
  space_blank : ∀ c ∈ space, c = ' ' ∨ c = '\t'
  value_number : IsNumber value
  ends : ending = ['\n'] ∨ ending = ['\r', '\n']

namespace SliceLine

/-- The slice without the blanks in front of it. -/
def slice (l : SliceLine) : List Char := l.quoted ++ (l.gap ++ ([':'] ++ (l.space ++ l.value)))

/-- The characters of the line, with its end. -/
def chars (l : SliceLine) : List Char := l.indent ++ (l.slice ++ l.ending)

end SliceLine

/-- The rule of slices. -/
def sliceRule : Rule :=
  .sequence [.capture "label" quotedString, ws, .labelled "':'" (lit ":"), ws, .capture "value" number]

theorem lookup_statement : grammar.rules.lookup "statement" = some statementRule := rfl

/-- A line that starts with a quote is no caption. -/
theorem misses_title (text : List Char) : (title "title").Misses table depth ('"' :: text) :=
  (misses_keyword rfl).sequence

theorem misses_accessibility (text : List Char) :
    (accessibility "acc_title" "acc_descr").Misses table depth ('"' :: text) :=
  (misses_keyword rfl).sequence.or ((misses_keyword rfl).sequence.or misses_choice_nil)

theorem stretch_title_le (text : List Char) :
    (title "title").stretch table depth ⟨offset, '"' :: text⟩ ≤ offset :=
  stretch_headed_le (misses_keyword rfl) _

theorem stretch_accessibility_le (text : List Char) :
    (accessibility "acc_title" "acc_descr").stretch table depth ⟨offset, '"' :: text⟩ ≤ offset :=
  stretch_choice_cons_le (stretch_headed_le (misses_keyword rfl) _)
    (stretch_choice_cons_le (stretch_headed_le (misses_keyword rfl) _) (stretch_choice_nil_le _ _))

theorem SliceStart.byteSize_quoted_pos (l : SliceStart) : 0 < Chars.byteSize l.quoted :=
  Nat.pos_of_ne_zero fun h => List.cons_ne_nil _ _ (Chars.byteSize_eq_zero.1 h)

theorem SliceStart.inked (l : SliceStart) (more : List Char) : Inked (l.quoted ++ more) := ⟨'"', rfl, by decide⟩

namespace SliceLine

theorem takes_sliceRule (l : SliceLine) (later : List Char) :
    ∃ leaves, sliceRule.Takes table depth l.slice (l.ending ++ later) leaves := by
  have noGo : ∀ c ∈ (l.ending ++ later).head?, ¬ ('0' ≤ c ∧ c ≤ '9') ∧ c ≠ '.' := by
    obtain h | h := l.ends <;> rw [h] <;> rintro c ⟨⟩ <;> decide
  obtain ⟨_, value⟩ := @IsNumber.takes table depth _ _ l.value_number noGo
  have space : ws.Takes table depth l.space (l.value ++ (l.ending ++ later)) fun _ => .items [] :=
    (l.value_number.inked.append _).takes_blanks l.space_blank
  have colon : (Rule.labelled "':'" (lit ":")).Takes table depth [':'] (l.space ++ l.value ++ (l.ending ++ later))
      fun _ => .empty := Rule.Takes.labelled (takes_lit ":" _) _
  have gap : ws.Takes table depth l.gap ([':'] ++ (l.space ++ l.value) ++ (l.ending ++ later)) fun _ => .items [] :=
    takes_blanks l.gap_blank (by rintro c ⟨⟩; decide)
  have label : quotedString.Takes table depth l.quoted
      (l.gap ++ ([':'] ++ (l.space ++ l.value)) ++ (l.ending ++ later)) fun _ => .fields [] :=
    l.body_escaped.takes_quoted _
  exact ⟨_, (label.tokenOf rfl "label").cons
    (gap.skip rfl (colon.skip rfl (space.skip rfl (value.capture "value").last)))⟩

/-- The statement of a line is its slice. -/
theorem takes_statement (l : SliceLine) (later : List Char) :
    ∃ leaves, (Rule.ref "statement").Takes grammar.rules (depth + 1) l.slice (l.ending ++ later) leaves := by
  obtain ⟨leaves, slice⟩ := @takes_sliceRule grammar.rules depth l later
  have last : (Rule.choice [.capture "slice" sliceRule]).Takes grammar.rules depth l.slice (l.ending ++ later) _ :=
    (slice.capture "slice").choice
  have statement := ((misses_title _).choice ((misses_accessibility _).choice last)).labelled "statement"
  exact ⟨_, statement.ref lookup_statement⟩

/-- A round of statements takes the line. -/
theorem ending?_round (l : SliceLine) (offset : Nat) (later : List Char) :
    (statementRound (.ref "statement")).ending? grammar.rules (depth + 1) ⟨offset, l.chars ++ later⟩ =
      some ⟨offset + Chars.byteSize l.chars, later⟩ := by
  obtain ⟨_, statement⟩ := @takes_statement depth l later
  have inked : Inked l.slice := l.inked _
  have stop : eol.Takes grammar.rules (depth + 1) l.ending later fun _ => .fields [] := takes_lineEnd l.ends later
  have round := outcome_statementRound inked l.indent_blank (statement (offset + Chars.byteSize l.indent)) (stop 0)
  rw [Rule.ending?, chars, round, Option.map_some]

theorem lineEndsAt_ending (l : SliceLine) (start : Nat) (later : List Char) :
    ∃ n, n + 1 = start + Chars.byteSize l.ending ∧ (⟨start, l.ending ++ later⟩ : Cursor).LineEndsAt n := by
  obtain h | h := l.ends <;> rw [h]
  · exact ⟨start, rfl, [], later, rfl, rfl⟩
  · exact ⟨start + 1, rfl, ['\r'], later, rfl, rfl⟩

/-- A round of statements stretches no further than the line. -/
theorem stretch_round_lt (l : SliceLine) (offset : Nat) (later : List Char) :
    (statementRound (.ref "statement")).stretch grammar.rules (depth + 1) ⟨offset, l.chars ++ later⟩ <
      offset + Chars.byteSize l.chars := by
  obtain ⟨_, statement⟩ := @takes_statement depth l later
  have e : l.chars ++ later = l.indent ++ (l.slice ++ (l.ending ++ later)) := by
    rw [chars, List.append_assoc, List.append_assoc]
  obtain ⟨n, hn, atEnding⟩ := l.lineEndsAt_ending (offset + Chars.byteSize l.indent + Chars.byteSize l.slice) later
  have atSlice := atEnding.append
  have atIndent := atSlice.append
  have size : n + 1 = offset + Chars.byteSize l.chars := by
    rw [hn, chars, Chars.byteSize_append, Chars.byteSize_append]
    omega
  rw [← size, e]
  refine Nat.lt_succ_of_le (stretch_choice_cons_le (stretch_le_line rfl atIndent)
    (stretch_choice_cons_le ?_ (stretch_choice_nil_le _ _)))
  have inked : Inked (l.slice ++ (l.ending ++ later)) := (l.inked _).append _
  refine (inked.takes_blanks l.indent_blank).stretch_le (stretch_le_line rfl atIndent) ?_
  refine statement.stretch_le ?_ (stretch_le_line rfl atEnding)
  rw [stretch_ref]
  refine stretch_labelled_le (stretch_choice_cons_le ?_ (stretch_choice_cons_le ?_
    (stretch_choice_cons_le (stretch_le_line rfl atSlice) (stretch_choice_nil_le _ _)))) atSlice.offset_le _
  · exact Nat.le_trans (stretch_title_le _) atSlice.offset_le
  · exact Nat.le_trans (stretch_accessibility_le _) atSlice.offset_le

theorem byteSize_chars_pos (l : SliceLine) : 0 < Chars.byteSize l.chars := by
  have := l.byteSize_quoted_pos
  rw [chars, slice, Chars.byteSize_append, Chars.byteSize_append, Chars.byteSize_append]
  omega

/-- There is one line feed in a line, at its end. -/
theorem exists_chars (l : SliceLine) : ∃ line, '\n' ∉ line ∧ l.chars = line ++ ['\n'] := by
  obtain ⟨_, slice⟩ := @takes_sliceRule [] 0 l []
  have inSlice : '\n' ∉ l.slice := slice.feed_not_mem rfl
  have inIndent : '\n' ∉ l.indent := fun h => absurd (l.indent_blank _ h) (by decide)
  obtain h | h := l.ends
  · exact ⟨l.indent ++ l.slice, by simp [inSlice, inIndent], by simp [chars, h]⟩
  · exact ⟨l.indent ++ (l.slice ++ ['\r']), by simp [inSlice, inIndent], by simp [chars, h]⟩

end SliceLine

/-! ## The line at fault -/

namespace SliceStart

variable {c : Char}

/-- Nothing is missed in a label. -/
theorem stretch_quoted (l : SliceStart) (offset : Nat) (rest : List Char) :
    quotedString.stretch table depth ⟨offset, l.quoted ++ rest⟩ = 0 := by
  have found := @Escaped.takes_quoted table depth _ l.body_escaped rest offset
  have text : l.quoted ++ rest = ['"'] ++ (l.body ++ (['"'] ++ rest)) := by simp [quoted]
  have mark (rest : List Char) : (lit "\"").Takes table depth ['"'] rest fun _ => .empty := takes_lit "\"" rest
  have body := (@Escaped.takes_many table depth _ l.body_escaped rest).quiet
  rw [quotedString, outcome_labelled] at found
  rw [quotedString, stretch_labelled, quoted, found, Option.isSome_some, if_pos rfl, ← quoted, text]
  refine Nat.le_zero.1 ((mark _).stretch_le (stretch_lit_found "\"" _ _).le (body.stretch_le ?_ ?_))
  · rw [stretch_quiet]
  · refine (mark rest).stretch_le (stretch_lit_found "\"" _ _).le ?_
    rw [stretch_sequence_nil]

/-- A slice is stuck at a character that stands in the place of its colon. -/
theorem sticks_slice (l : SliceStart) (hc : c ≠ ':') (hblank : c ≠ ' ' ∧ c ≠ '\t') (start : Nat) :
    Sticks table depth sliceRule ⟨start, l.quoted ++ (l.gap ++ c :: later)⟩ none
      (start + Chars.byteSize l.quoted + Chars.byteSize l.gap) "':'" := by
  have label : quotedString.Takes table depth l.quoted (l.gap ++ c :: later) fun _ => .fields [] :=
    l.body_escaped.takes_quoted _
  have gap : ws.Takes table depth l.gap (c :: later) fun _ => .items [] :=
    takes_blanks l.gap_blank (by rintro _ ⟨⟩; exact hblank)
  have noColon : (lit ":").Misses table depth (c :: later) := by
    refine misses_lit ?_
    rintro ⟨more, e⟩
    exact hc (List.cons.inj e).1.symm
  have pos := l.byteSize_quoted_pos
  refine Sticks.sequence_takes (label.tokenOf rfl "label") ?_ (Sticks.sequence_takes gap ?_ ?_)
  · rw [stretch_capture, l.stretch_quoted]
    omega
  · rw [ws, stretch_quiet]
    omega
  · exact Sticks.sequence_fail (Sticks.labelled_here (noColon _) (stretch_lit_le ":" _) "':'") _

/-- A statement is stuck there, for it is no caption either. -/
theorem sticks_statement (l : SliceStart) (hc : c ≠ ':') (hblank : c ≠ ' ' ∧ c ≠ '\t') (start : Nat) :
    Sticks grammar.rules (depth + 1) (.ref "statement") ⟨start, l.quoted ++ (l.gap ++ c :: later)⟩ none
      (start + Chars.byteSize l.quoted + Chars.byteSize l.gap) "':'" := by
  have beyond : start < start + Chars.byteSize l.quoted + Chars.byteSize l.gap := by
    have := l.byteSize_quoted_pos
    omega
  have slice := (@sticks_slice grammar.rules depth later c l hc hblank start).capture "slice"
  refine (Sticks.labelled ?_ beyond "statement").ref lookup_statement
  refine Sticks.choice_cons (misses_title _ _) ?_ (Sticks.choice_cons (misses_accessibility _ _) ?_ slice.choice_last)
  · exact Nat.lt_of_le_of_lt (stretch_title_le _) beyond
  · exact Nat.lt_of_le_of_lt (stretch_accessibility_le _) beyond

/-- A round of statements is stuck there. -/
theorem sticks_round (l : SliceStart) (hc : c ≠ ':') (hblank : c ≠ ' ' ∧ c ≠ '\t') (start : Nat) :
    Sticks grammar.rules (depth + 1) (statementRound (.ref "statement")) ⟨start, l.text ++ c :: later⟩ none
      (start + Chars.byteSize l.text) "':'" := by
  have inked : Inked (l.quoted ++ (l.gap ++ c :: later)) := l.inked _
  have e : l.text ++ c :: later = l.indent ++ (l.quoted ++ (l.gap ++ c :: later)) := by
    rw [text, List.append_assoc, List.append_assoc]
  have size : start + Chars.byteSize l.text =
      start + Chars.byteSize l.indent + Chars.byteSize l.quoted + Chars.byteSize l.gap := by
    rw [text, Chars.byteSize_append, Chars.byteSize_append]
    omega
  have pos := l.byteSize_quoted_pos
  rw [e, size]
  refine Sticks.choice_cons (inked.misses_indented l.indent_blank _) ?_ (Sticks.choice_last
    (Sticks.sequence_takes (inked.takes_blanks l.indent_blank) ?_ ((l.sticks_statement hc hblank _).sequence_fail _)))
  · rw [blankLine, stretch_quiet]
    omega
  · rw [ws, stretch_quiet]
    omega

/-- The statements end in front of the line, whatever slices there are before it. -/
theorem sticks_body (l : SliceStart) (hc : c ≠ ':') (hblank : c ≠ ' ' ∧ c ≠ '\t') (slices : List SliceLine)
    (start : Nat) :
    Sticks grammar.rules (depth + 1) (statementLines (.ref "statement"))
      ⟨start, slices.flatMap SliceLine.chars ++ (l.text ++ c :: later)⟩
      (some ⟨start + Chars.byteSize (slices.flatMap SliceLine.chars), l.text ++ c :: later⟩)
      (start + Chars.byteSize (slices.flatMap SliceLine.chars) + Chars.byteSize l.text) "':'" := by
  induction slices generalizing start with
  | nil => exact (l.sticks_round hc hblank start).many_stop
  | cons slice slices ih =>
    have more := ih (start + Chars.byteSize slice.chars)
    rw [List.flatMap_cons, Chars.byteSize_append, List.append_assoc, ← Nat.add_assoc]
    refine more.many_round (slice.ending?_round start _) ?_ ?_
    · exact Nat.lt_of_lt_of_le (slice.stretch_round_lt start _) (by omega)
    · intro same
      have size : start + Chars.byteSize slice.chars = start := congrArg Cursor.offset same
      have := slice.byteSize_chars_pos
      omega

end SliceStart

/-! ## Headers -/

/-- The header of a pie chart: a line that makes up a document of its own. -/
structure IsHeader (depth : Nat) (head : List Char) : Prop where
  feed_not_mem : '\n' ∉ head
  accepted : ∃ tree, grammar.parse depth (String.ofList (head ++ ['\n'])) = .ok tree

/-- The rules of the header line. -/
def headline : Rule := .sequence [ws, headerRule, eol]

/-- A document with its header line as one part. -/
theorem alike_root : Alike (.sequence [preamble, headline, .capture "statements" (statementLines (.ref "statement")),
    endOfInput]) grammar.root :=
  alike_sequence_splice [preamble] [ws, headerRule, eol]
    [.capture "statements" (statementLines (.ref "statement")), endOfInput]

theorem misses_headline_nil : headline.Misses table depth [] :=
  (takes_ws_nil (by simp)).nil_misses (Rule.Misses.sequence (misses_keyword rfl).sequence)

/-- Nothing is left of a line behind its line feed. -/
theorem rest_eq_nil_of_feed {line text rest : List Char} (hline : '\n' ∉ line) (e : line ++ ['\n'] = text ++ rest)
    (htext : '\n' ∈ text) : rest = [] := by
  obtain ⟨more, rfl, h⟩ | ⟨more, rfl, -⟩ := List.append_eq_append_iff.1 e
  · cases more with
    | nil => exact absurd htext (by simpa using hline)
    | cons c more => exact (List.append_eq_nil_iff.1 (List.cons.inj h).2.symm).2
  · exact absurd (List.mem_append_left _ htext) hline

/-- A header line ends with its line feed. -/
theorem headline_rest {line : List Char} {next : Cursor} {a : Fragment} (hline : '\n' ∉ line)
    (h : headline.outcome table depth ⟨offset, line ++ ['\n']⟩ = some (next, a)) : next.rest = [] := by
  obtain ⟨first, _, _, hws, h, -⟩ := sequence_cons_eq_some.1 h
  obtain ⟨second, _, _, hheader, h, -⟩ := sequence_cons_eq_some.1 h
  obtain ⟨_, heol, -⟩ := sequence_singleton_eq_some.1 h
  obtain ⟨text, hs⟩ := (outcome_reaches hws).trans (outcome_reaches hheader)
  obtain ⟨ending, hs', hfeed | hnil⟩ := eol_spans heol
  · exact rest_eq_nil_of_feed hline (hs.trans hs').rest
      (List.mem_append_right _ (List.mem_of_getLast? hfeed))
  · exact hnil

/-- A header is no blank line, and it is taken as a header in front of any statements. -/
theorem IsHeader.takes {head : List Char} (h : IsHeader depth head) :
    (∀ later, blankLine.Misses grammar.rules depth (head ++ ['\n'] ++ later)) ∧
      ∃ leaves : Nat → Fragment, ∀ later,
        headline.Takes grammar.rules depth (head ++ ['\n']) later leaves := by
  obtain ⟨tree, accepted⟩ := h.accepted
  obtain ⟨last, whole, hm, -, -⟩ := parse_eq_ok.1 accepted
  rw [← alike_root.outcome_eq, Cursor.start, String.toList_ofList] at hm
  obtain ⟨first, _, _, hpreamble, hm, -⟩ := sequence_cons_eq_some.1 hm
  obtain ⟨⟨stop, rest⟩, a, _, hheadline, -, -⟩ := sequence_cons_eq_some.1 hm
  have hfeed : '\n' ∈ head ++ ['\n'] := List.mem_append_right _ (List.mem_singleton.2 rfl)
  obtain ⟨line, more, leaves, e, takes⟩ | misses :=
    @decided_of_isLineWise grammar.rules depth blankLine _ rfl hfeed
  · -- a blank line would be all of the document, and leave no header
    obtain ⟨line', -, hmem, hs⟩ := blankLine_idle (takes [] 0)
    obtain rfl : line = line' := List.append_cancel_right hs.rest
    obtain rfl := rest_eq_nil_of_feed h.feed_not_mem e hmem
    have whole := (takes []).manySkip rfl (List.ne_nil_of_mem hmem) misses_blankLine_nil.many
    have found := whole 0
    simp only [List.append_nil] at found e
    rw [e, preamble, found] at hpreamble
    obtain ⟨rfl, -⟩ := Prod.mk.inj (Option.some.inj hpreamble)
    rw [misses_headline_nil] at hheadline
    cases hheadline
  · have missed := misses [] 0
    rw [List.append_nil] at missed
    rw [preamble, outcome_many_of_none missed] at hpreamble
    obtain ⟨rfl, -⟩ := Prod.mk.inj (Option.some.inj hpreamble)
    obtain rfl : rest = [] := headline_rest h.feed_not_mem hheadline
    rw [← List.append_nil (head ++ ['\n'])] at hheadline
    obtain ⟨leaves, -, takes⟩ := takes_of_feed_mem rfl hfeed hheadline
    exact ⟨misses, leaves, takes⟩

/-! ## Documents -/

/-- A line that starts as a slice does and goes on with another character than a colon. -/
structure StrayLine extends SliceStart where
  fault : Char
  fault_ne : fault ≠ ':'
  fault_visible : isBlank fault = false

/-- The characters of a document in front of the fault in its last line: a header, slices, and the start of the
line. -/
def front (head : List Char) (slices : List SliceLine) (stray : StrayLine) : List Char :=
  head ++ ['\n'] ++ (slices.flatMap SliceLine.chars ++ stray.text)

section

variable {head : List Char}

/-- The parse of the document fails at the fault, where it expects a colon. -/
theorem parse_stray (h : IsHeader (depth + 1) head) (slices : List SliceLine) (stray : StrayLine) (rest : List Char) :
    grammar.parse (depth + 1) (String.ofList (front head slices stray ++ stray.fault :: rest)) =
      .error ⟨Chars.byteSize (front head slices stray), ["':'"]⟩ := by
  have hblank : stray.fault ≠ ' ' ∧ stray.fault ≠ '\t' := by
    constructor <;> intro e <;> have := stray.fault_visible <;> rw [e] at this <;> cases this
  obtain ⟨misses, leaves, takes⟩ := h.takes
  let body := slices.flatMap SliceLine.chars ++ (stray.text ++ stray.fault :: rest)
  have text : front head slices stray ++ stray.fault :: rest = head ++ ['\n'] ++ body := by
    simp [front, body]
  have size : Chars.byteSize (front head slices stray) = 0 + Chars.byteSize (head ++ ['\n']) +
      Chars.byteSize (slices.flatMap SliceLine.chars) + Chars.byteSize stray.text := by
    rw [front, Chars.byteSize_append, Chars.byteSize_append _ stray.text]
    omega
  have pos : 0 < Chars.byteSize stray.text := by
    have := stray.byteSize_quoted_pos
    rw [SliceStart.text, Chars.byteSize_append, Chars.byteSize_append]
    omega
  have line : (⟨0, head ++ ['\n'] ++ body⟩ : Cursor).LineEndsAt (Chars.byteSize head) :=
    ⟨head, body, List.append_assoc .., Nat.zero_add _⟩
  have shorter : Chars.byteSize head ≤ Chars.byteSize (head ++ ['\n']) := by
    rw [Chars.byteSize_append]
    omega
  have stuck := (@SliceStart.sticks_body depth rest stray.fault stray.toSliceStart stray.fault_ne hblank slices
    (0 + Chars.byteSize (head ++ ['\n']))).capture "statements"
  have fromBody := stuck.sequence_end (by show _ + _ < _; omega) (by simp)
  have fromHead := Sticks.sequence_takes (takes body)
    (Nat.lt_of_le_of_lt (stretch_le_line rfl line) (by omega)) fromBody
  have whole := Sticks.sequence_takes (misses body).many
    (Nat.lt_of_le_of_lt (stretch_preamble (misses body 0)).le (by omega)) fromHead
  rw [size]
  refine (Sticks.of_alike ?_ alike_root).parse_eq_error (by omega)
  rw [Cursor.start, String.toList_ofList, text]
  exact whole

theorem feed_not_mem_text (l : SliceStart) : '\n' ∉ l.text := by
  have inQuoted : '\n' ∉ l.quoted := (@Escaped.takes_quoted [] 0 _ l.body_escaped []).feed_not_mem rfl
  have inIndent : '\n' ∉ l.indent := fun h => absurd (l.indent_blank _ h) (by decide)
  have inGap : '\n' ∉ l.gap := fun h => absurd (l.gap_blank _ h) (by decide)
  simp [SliceStart.text, inQuoted, inIndent, inGap]

/-- The line at fault is the one behind the header and the slices, and the fault stands in it behind what it starts
with. -/
theorem place_stray (h : IsHeader depth head) (slices : List SliceLine) (stray : StrayLine) :
    (front head slices stray).count '\n' = slices.length + 1 ∧
      Diagnostic.lastLine (front head slices stray) = stray.text := by
  have inText := feed_not_mem_text stray.toSliceStart
  have behind : (slices.flatMap SliceLine.chars ++ stray.text).count '\n' = slices.length ∧
      Diagnostic.lastLine (slices.flatMap SliceLine.chars ++ stray.text) = stray.text := by
    induction slices with
    | nil => exact ⟨List.count_eq_zero.2 inText, Diagnostic.lastLine_of_not_mem inText⟩
    | cons slice slices ih =>
      obtain ⟨line, hline, e⟩ := slice.exists_chars
      have e : slice.chars ++ slices.flatMap SliceLine.chars ++ stray.text =
          line ++ '\n' :: (slices.flatMap SliceLine.chars ++ stray.text) := by simp [e]
      rw [List.flatMap_cons, e, Diagnostic.lastLine_append_feed, List.count_append, List.count_eq_zero.2 hline,
        List.count_cons_self, ih.1, Nat.zero_add]
      exact ⟨rfl, ih.2⟩
  have e : front head slices stray = head ++ '\n' :: (slices.flatMap SliceLine.chars ++ stray.text) := by
    simp [front]
  rw [e, Diagnostic.lastLine_append_feed, List.count_append, List.count_eq_zero.2 h.feed_not_mem,
    List.count_cons_self, behind.1, Nat.zero_add]
  exact ⟨rfl, behind.2⟩

end

/-- What is parsed of a document goes on at least to a character that is visible. -/
theorem exists_sourceOf (options : ParseOptions) (before : List Char) {c : Char} (hc : isBlank c = false)
    (rest : List Char) : ∃ rest', sourceOf options (String.ofList (before ++ c :: rest)) =
      String.ofList (before ++ c :: rest') := by
  unfold sourceOf
  split
  · exact ⟨_, by rw [String.toList_ofList, Chars.trimEnd_append_of_not_blank before hc]⟩
  · exact ⟨rest, rfl⟩

/-- A pie chart whose header and slices are well formed up to a line in which a label is followed by another
character than a colon is rejected. It is reported at that character: in the line of its number, in its column, with
a colon as all that is expected, whatever follows. -/
theorem stray_slice_located {registry : Registry} (registered : registry.contains .pie = true)
    (options : ParseOptions) {head : List Char} (h : IsHeader (options.nesting + 1) head) (slices : List SliceLine)
    (stray : StrayLine) (rest : List Char) :
    ∃ d, parseAs registry options .pie (String.ofList (front head slices stray ++ stray.fault :: rest)) =
        .error (.malformed d) ∧
      d.line = slices.length + 2 ∧ d.column = stray.text.length + 1 ∧ d.expected = "':'" := by
  obtain ⟨rest', source⟩ := exists_sourceOf options (front head slices stray) stray.fault_visible rest
  have failed : Kind.pie.dialect.grammar.parse (options.nesting + 1)
      (String.ofList (front head slices stray ++ stray.fault :: rest')) =
      .error ⟨Chars.byteSize (front head slices stray), ["':'"]⟩ := parse_stray h slices stray rest'
  obtain ⟨lines, last⟩ := place_stray h slices stray
  have before : charsBefore (String.ofList (front head slices stray ++ stray.fault :: rest'))
      (Chars.byteSize (front head slices stray)) = front head slices stray := by
    rw [charsBefore, String.toList_ofList, Chars.takeBytes_append]
  refine ⟨.locate .pie (String.ofList (front head slices stray ++ stray.fault :: rest'))
    ⟨Chars.byteSize (front head slices stray), ["':'"]⟩, ?_, ?_, ?_, rfl⟩
  · rw [parseAs, if_pos registered, source]
    simp only [failed]
  · simp only [Diagnostic.locate, before, lines]
  · simp only [Diagnostic.locate, before, last]

/-- A slice whose label takes two bytes. -/
def plainSlice : SliceLine where
  indent := []
  body := ['é']
  gap := [' ']
  indent_blank := by decide
  body_escaped := .plain (by decide) .nil
  gap_blank := by decide
  space := [' ']
  value := ['1']
  ending := ['\n']
  space_blank := by decide
  value_number := ⟨[], ['1'], rfl, .inl rfl, .whole ⟨by decide, by decide⟩⟩
  ends := .inl rfl

/-- A number where the colon should be. -/
def strayNumber : StrayLine where
  indent := [' ', ' ']
  body := ['B', 'ä', 'd']
  gap := [' ']
  indent_blank := by decide
  body_escaped := .plain (by decide) (.plain (by decide) (.plain (by decide) .nil))
  gap_blank := by decide
  fault := '1'
  fault_ne := by decide
  fault_visible := by decide

/-- The column counts characters: the label before the fault has one of two bytes, as has that of the slice in the line
above. -/
theorem stray_number_located :
    Registry.all.contains .pie = true ∧ IsHeader 21 "pie".toList ∧
      ∃ d, parseAs Registry.all { nesting := 20 } .pie "pie\n\"é\" : 1\n  \"Bäd\" 1" = .error (.malformed d) ∧
        d.line = 3 ∧ d.column = 9 ∧ d.expected = "':'" := by
  have registered : Registry.all.contains .pie = true := by decide
  have header : IsHeader 21 "pie".toList := ⟨by decide, _, rfl⟩
  exact ⟨registered, header, stray_slice_located registered { nesting := 20 } header [plainSlice] strayNumber []⟩

end DiagramText.Pie
