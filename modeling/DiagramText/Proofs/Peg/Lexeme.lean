import DiagramText.Peg.Lexeme
import DiagramText.Proofs.Peg.Outcome
import DiagramText.Text.Blank

/-!
# What lexemes match

A repetition of a character class takes all characters of the class that come (`outcome_many_chars`),
and a keyword is a whole word (`keyword_spells`). The lines before the header of a document are idle:
they hold blanks and comments only (`preamble_idle`).
-/

namespace DiagramText.Peg

/-! ## Characters of words -/

/-- The case of a letter does not matter for its being in a word. -/
theorem isWordChar_toLower (c : Char) : isWordChar c.toLower = isWordChar c := by
  unfold isWordChar Char.isAlphanum Char.isAlpha Char.isUpper Char.isLower Char.isDigit Char.toLower
  grind

/-- No character of a word is blank. -/
theorem not_isBlank_of_isWordChar {c : Char} (h : isWordChar c = true) : isBlank c = false := by
  have hval : c.toNat = c.val.toNat := rfl
  unfold isWordChar Char.isAlphanum Char.isAlpha Char.isUpper Char.isLower Char.isDigit at h
  simp only [Bool.or_eq_true, Bool.and_eq_true, decide_eq_true_eq, beq_iff_eq, ← Char.toNat_inj,
    ge_iff_le, UInt32.le_iff_toNat_le, Char.reduceVal, UInt32.reduceToNat, Char.reduceToNat] at h
  simp only [isBlank, Bool.or_eq_false_iff, Bool.and_eq_false_iff, decide_eq_false_iff_not,
    beq_eq_false_iff_ne]
  omega

/-- A word ends with the first character that is not one of a word. -/
theorem takeWhile_word {word rest : List Char} (hword : ∀ c ∈ word, isWordChar c = true)
    (hrest : ∀ c ∈ rest.head?, isWordChar c = false) : (word ++ rest).takeWhile isWordChar = word := by
  rw [List.takeWhile_append_of_pos hword]
  cases rest with
  | nil => exact List.append_nil word
  | cons c rest =>
    rw [List.takeWhile_cons_of_neg (by simp [hrest c rfl]), List.append_nil]

/-! ## Runs of characters -/

/-- The position behind all the characters to come that `keep` holds of. -/
def Cursor.past (cur : Cursor) (keep : Char → Bool) : Cursor :=
  ⟨cur.offset + Chars.byteSize (cur.rest.takeWhile keep), cur.rest.dropWhile keep⟩

theorem Cursor.spans_past (cur : Cursor) (keep : Char → Bool) :
    cur.Spans (cur.rest.takeWhile keep) (cur.past keep) :=
  ⟨List.takeWhile_append_dropWhile.symm, rfl⟩

/-- A run ends with the first character that it cannot take. -/
theorem Cursor.past_append {keep : Char → Bool} {text rest : List Char}
    (h : ∀ c ∈ text, keep c = true) (hstop : ∀ c ∈ rest.head?, keep c = false) (offset : Nat) :
    (⟨offset, text ++ rest⟩ : Cursor).past keep = ⟨offset + Chars.byteSize text, rest⟩ := by
  have hrest : rest.takeWhile keep = [] ∧ rest.dropWhile keep = rest := by
    cases rest with
    | nil => exact ⟨rfl, rfl⟩
    | cons c rest =>
      have hc : ¬ keep c = true := by rw [hstop c rfl]; exact Bool.false_ne_true
      exact ⟨List.takeWhile_cons_of_neg hc, List.dropWhile_cons_of_neg hc⟩
  rw [past, List.takeWhile_append_of_pos h, List.dropWhile_append_of_pos h, hrest.1, hrest.2,
    List.append_nil]

/-- A run may go on to the end. -/
theorem Cursor.past_of_all {keep : Char → Bool} {text : List Char} (h : ∀ c ∈ text, keep c = true)
    (offset : Nat) :
    (⟨offset, text⟩ : Cursor).past keep = ⟨offset + Chars.byteSize text, []⟩ := by
  have := @past_append keep text [] h (by simp) offset
  rwa [List.append_nil] at this

section

variable {table : List (String × Rule)} {depth : Nat} {cur next : Cursor} {fragment : Fragment}

theorem outcome_many_chars (set : CharClass) (cur : Cursor) :
    (many (.chars set)).outcome table depth cur = some (cur.past set.contains, .items []) := by
  obtain ⟨offset, rest⟩ := cur
  induction rest generalizing offset with
  | nil => rfl
  | cons c rest ih =>
    rw [many, outcome_repeated, outcome_chars, Cursor.next?]
    by_cases hc : set.contains c = true
    · have hne : (⟨offset + c.utf8Size, rest⟩ : Cursor) ≠ ⟨offset, c :: rest⟩ := by simp
      have hrest := ih (offset + c.utf8Size)
      rw [many] at hrest
      simp only [hc, ↓reduceIte, Option.map_some, hne, reduceCtorEq, Nat.zero_sub, Option.map_none,
        hrest, Cursor.past, List.takeWhile_cons, List.dropWhile_cons, Chars.byteSize_cons,
        Nat.add_assoc, Fragment.round, Fragment.empty, Fragment.toFields, Fragment.behind,
        List.append_nil]
    · simp only [hc, Bool.false_eq_true, ↓reduceIte, Option.map_none, reduceCtorEq, Cursor.past,
        List.takeWhile_cons, List.dropWhile_cons, Chars.byteSize_nil, Nat.add_zero]

theorem outcome_many1_chars (set : CharClass) (cur : Cursor) :
    (many1 (.chars set)).outcome table depth cur =
      if cur.rest.head?.any set.contains then some (cur.past set.contains, .items []) else none := by
  obtain ⟨offset, rest⟩ := cur
  rw [many1, outcome_repeated, outcome_chars, Cursor.next?]
  cases rest with
  | nil => simp
  | cons c rest =>
    by_cases hc : set.contains c = true
    · have hne : (⟨offset + c.utf8Size, rest⟩ : Cursor) ≠ ⟨offset, c :: rest⟩ := by simp
      have hrest := @outcome_many_chars table depth set ⟨offset + c.utf8Size, rest⟩
      rw [many] at hrest
      simp only [hc, ↓reduceIte, Option.map_some, hne, reduceCtorEq, Nat.sub_self, Option.map_none,
        hrest, Cursor.past, List.takeWhile_cons, List.dropWhile_cons, Chars.byteSize_cons,
        Nat.add_assoc, Fragment.round, Fragment.empty, Fragment.toFields, Fragment.behind,
        List.append_nil, List.head?_cons, Option.any_some]
    · simp [hc]

/-- A repetition of a rule that fails is empty. -/
theorem outcome_many_of_none {r : Rule} (h : r.outcome table depth cur = none) :
    (many r).outcome table depth cur = some (cur, .items []) := by
  rw [many, outcome_repeated, h]
  rfl

theorem outcome_ws (cur : Cursor) :
    ws.outcome table depth cur = some (cur.past [' ', '\t'].contains, .items []) := by
  rw [ws, outcome_quiet, oneOf, outcome_many_chars]
  rfl

/-- Spaces and tabs are all that `ws` takes. -/
theorem ws_spans (h : ws.outcome table depth cur = some (next, fragment)) :
    ∃ blanks, (∀ c ∈ blanks, c = ' ' ∨ c = '\t') ∧ cur.Spans blanks next := by
  rw [outcome_ws] at h
  obtain ⟨rfl, -⟩ := Prod.mk.inj (Option.some.inj h)
  refine ⟨_, fun c hc => ?_, cur.spans_past _⟩
  have := List.all_eq_true.1 List.all_takeWhile c hc
  simpa using this

/-- A match of a literal moves over an occurrence of its text. -/
theorem literal_spans {text : String} {anyCase : Bool}
    (h : (Rule.literal text anyCase).outcome table depth cur = some (next, fragment)) :
    ∃ found, Spells text anyCase found ∧ cur.Spans found next := by
  rw [outcome_literal] at h
  obtain ⟨next', hs, e⟩ := Option.map_eq_some_iff.1 h
  obtain ⟨rfl, -⟩ := Prod.mk.inj e
  exact Cursor.skip?_eq_some.1 hs

theorem outcome_lit (text : String) (offset : Nat) (rest : List Char) :
    (lit text).outcome table depth ⟨offset, text.toList ++ rest⟩ =
      some (⟨offset + Chars.byteSize text.toList, rest⟩, .empty) := by
  have hskip : Cursor.skip? ⟨offset, text.toList ++ rest⟩ text false =
      some ⟨offset + Chars.byteSize text.toList, rest⟩ :=
    Cursor.skip?_eq_some.2 ⟨text.toList, rfl, rfl, rfl⟩
  rw [lit, outcome_literal, hskip, Option.map_some]

theorem lit_spans {text : String} (h : (lit text).outcome table depth cur = some (next, fragment)) :
    cur.Spans text.toList next := by
  obtain ⟨found, hf, hs⟩ := literal_spans h
  obtain rfl : found = text.toList := hf
  exact hs

/-- No character of a word follows a keyword. -/
theorem keyword_spells {text : String} {anyCase : Bool}
    (h : (Rule.sequence [.literal text anyCase, .notAhead wordChar]).outcome table depth cur =
      some (next, fragment)) :
    ∃ word, Spells text anyCase word ∧ cur.Spans word next ∧
      ∀ c ∈ next.rest.head?, isWordChar c = false := by
  obtain ⟨mid, _, _, hword, hend, -⟩ := sequence_cons_eq_some.1 h
  obtain ⟨found, hf, hs⟩ := literal_spans hword
  obtain ⟨_, hstop, -⟩ := sequence_singleton_eq_some.1 hend
  rw [outcome_notAhead, Option.ite_none_right_eq_some, wordChar, outcome_chars,
    Option.map_eq_none_iff] at hstop
  obtain ⟨hnone, e⟩ := hstop
  obtain ⟨rfl, -⟩ := Prod.mk.inj (Option.some.inj e)
  refine ⟨found, hf, hs, fun c hc => ?_⟩
  obtain ⟨rest, hrest⟩ := List.head?_eq_some_iff.1 hc
  exact Cursor.next?_eq_none.1 hnone c rest hrest

/-- The end of the input is where nothing is left. -/
theorem endOfInput_rest (h : endOfInput.outcome table depth cur = some (next, fragment)) :
    next = cur ∧ fragment = .empty ∧ cur.rest = [] := by
  rw [endOfInput, outcome_labelled, outcome_notAhead, Option.ite_none_right_eq_some, anyChar,
    outcome_chars, Option.map_eq_none_iff] at h
  obtain ⟨hnone, e⟩ := h
  obtain ⟨rfl, rfl⟩ := Prod.mk.inj (Option.some.inj e)
  refine ⟨rfl, rfl, ?_⟩
  cases hrest : cur.rest with
  | nil => rfl
  | cons c rest => cases Cursor.next?_eq_none.1 hnone c rest hrest

/-! ## Idle lines -/

/-- Lines without a statement, and their ends: blanks, and perhaps a comment. -/
inductive Idle : List Char → Prop
  | nil : Idle []
  | line {blanks comment ending more} (hb : ∀ c ∈ blanks, c = ' ' ∨ c = '\t')
    (hc : comment = [] ∨ ∃ text, comment = '%' :: '%' :: text ∧ ∀ c ∈ text, c ≠ '\r' ∧ c ≠ '\n')
    (he : ending = ['\n'] ∨ ending = ['\r', '\n']) (h : Idle more) :
    Idle (blanks ++ comment ++ ending ++ more)

theorem Idle.append {lines more : List Char} (h : Idle lines) (h' : Idle more) :
    Idle (lines ++ more) := by
  induction h with
  | nil => exact h'
  | line hb hc he _ ih =>
    rw [List.append_assoc]
    exact .line hb hc he ih

/-- Blanks and a comment have no line end. -/
theorem lineEnd_not_mem {blanks comment : List Char} (hb : ∀ c ∈ blanks, c = ' ' ∨ c = '\t')
    (hc : comment = [] ∨ ∃ text, comment = '%' :: '%' :: text ∧ ∀ c ∈ text, c ≠ '\r' ∧ c ≠ '\n') :
    ∀ c ∈ blanks ++ comment, c ≠ '\r' ∧ c ≠ '\n' := by
  intro c hmem
  rcases List.mem_append.1 hmem with hmem | hmem
  · rcases hb c hmem with rfl | rfl <;> decide
  · rcases hc with rfl | ⟨text, rfl, htext⟩
    · cases hmem
    · simp only [List.mem_cons] at hmem
      rcases hmem with rfl | rfl | hmem
      · decide
      · decide
      · exact htext c hmem

theorem comment_spans (h : comment.outcome table depth cur = some (next, fragment)) :
    ∃ text, (∀ c ∈ text, c ≠ '\r' ∧ c ≠ '\n') ∧ cur.Spans ('%' :: '%' :: text) next := by
  obtain ⟨mid, _, _, hmark, hend, -⟩ := sequence_cons_eq_some.1 h
  obtain ⟨_, htext, -⟩ := sequence_singleton_eq_some.1 hend
  rw [outcome_quiet, noneOf, outcome_many_chars] at htext
  obtain ⟨rfl, -⟩ := Prod.mk.inj (Option.some.inj htext)
  refine ⟨_, fun c hc => ?_, (lit_spans hmark).trans (mid.spans_past _)⟩
  have := List.all_eq_true.1 List.all_takeWhile c hc
  simpa [CharClass.contains] using this

/-- A comment that may be missing. -/
theorem optional_comment_spans (h : (Rule.optional comment).outcome table depth cur = some (next, fragment)) :
    ∃ text, (text = [] ∨ ∃ more, text = '%' :: '%' :: more ∧ ∀ c ∈ more, c ≠ '\r' ∧ c ≠ '\n') ∧
      cur.Spans text next := by
  rw [outcome_optional] at h
  cases hc : comment.outcome table depth cur with
  | none =>
    rw [hc] at h
    obtain ⟨rfl, -⟩ := Prod.mk.inj (Option.some.inj h)
    exact ⟨[], .inl rfl, .refl cur⟩
  | some found =>
    rw [hc] at h
    obtain ⟨text, htext, hs⟩ := comment_spans (hc.trans h)
    exact ⟨_, .inr ⟨text, rfl, htext⟩, hs⟩

theorem newline_spans (h : newline.outcome table depth cur = some (next, fragment)) :
    ∃ ending, (ending = ['\n'] ∨ ending = ['\r', '\n']) ∧ cur.Spans ending next := by
  rw [newline, outcome_labelled] at h
  obtain ⟨r, hr, h⟩ := choice_eq_some h
  simp only [List.mem_cons, List.not_mem_nil, or_false] at hr
  rcases hr with rfl | rfl
  · exact ⟨_, .inr rfl, lit_spans h⟩
  · exact ⟨_, .inl rfl, lit_spans h⟩

theorem outcome_newline_ending {text : List Char} (he : text = ['\n'] ∨ text = ['\r', '\n']) (offset : Nat)
    (rest : List Char) :
    newline.outcome table depth ⟨offset, text ++ rest⟩ =
      some (⟨offset + Chars.byteSize text, rest⟩, .empty) := by
  rw [newline, outcome_labelled, outcome_choice_cons, outcome_choice_cons]
  rcases he with rfl | rfl
  · have hreturn : (lit "\r\n").outcome table depth ⟨offset, ['\n'] ++ rest⟩ = none := by
      rw [lit, outcome_literal]
      rfl
    have hfeed : (lit "\n").outcome table depth ⟨offset, ['\n'] ++ rest⟩ =
        some (⟨offset + Chars.byteSize ['\n'], rest⟩, .empty) := outcome_lit "\n" offset rest
    rw [hreturn, hfeed, Option.none_or, Option.some_or]
  · have hreturn : (lit "\r\n").outcome table depth ⟨offset, ['\r', '\n'] ++ rest⟩ =
        some (⟨offset + Chars.byteSize ['\r', '\n'], rest⟩, .empty) := outcome_lit "\r\n" offset rest
    rw [hreturn, Option.some_or]

theorem outcome_newline_of_inLine (h : ∀ c ∈ cur.rest.head?, c ≠ '\r' ∧ c ≠ '\n') :
    newline.outcome table depth cur = none := by
  have hlit {text : String} {c : Char} {more : List Char} (htext : text.toList = c :: more)
      (hc : c = '\r' ∨ c = '\n') : (lit text).outcome table depth cur = none := by
    rw [lit, outcome_literal, Option.map_eq_none_iff, Cursor.skip?_eq_none]
    rintro found rest (rfl : found = _) e
    rw [htext] at e
    have := h c (by rw [e]; rfl)
    rcases hc with rfl | rfl
    · exact this.1 rfl
    · exact this.2 rfl
  rw [newline, outcome_labelled, outcome_choice_cons, outcome_choice_cons, outcome_choice_nil,
    hlit rfl (.inl rfl), hlit rfl (.inr rfl)]
  rfl

theorem blankLine_idle (h : blankLine.outcome table depth cur = some (next, fragment)) :
    ∃ line, Idle line ∧ '\n' ∈ line ∧ cur.Spans line next := by
  rw [blankLine, outcome_quiet] at h
  obtain ⟨first, _, _, hws, h, -⟩ := sequence_cons_eq_some.1 h
  obtain ⟨second, _, _, hcomment, h, -⟩ := sequence_cons_eq_some.1 h
  obtain ⟨_, hnewline, -⟩ := sequence_singleton_eq_some.1 h
  obtain ⟨blanks, hblanks, hs⟩ := ws_spans hws
  obtain ⟨ending, hending, hs'⟩ := newline_spans hnewline
  obtain ⟨text, htext, hspan⟩ := optional_comment_spans hcomment
  refine ⟨_, .line hblanks htext hending .nil, ?_, ?_⟩
  · rcases hending with rfl | rfl <;> simp
  · rw [List.append_nil]
    exact (hs.trans hspan).trans hs'

/-- An idle line has an end. -/
theorem outcome_blankLine_of_not_mem (h : '\n' ∉ cur.rest) :
    blankLine.outcome table depth cur = none := by
  rw [Option.eq_none_iff_forall_ne_some]
  rintro ⟨next, fragment⟩ hm
  obtain ⟨line, -, hmem, hs⟩ := blankLine_idle hm
  exact h (hs.rest ▸ List.mem_append_left _ hmem)

/-- The lines before the header of a document are idle. -/
theorem preamble_idle (h : preamble.outcome table depth cur = some (next, fragment)) :
    ∃ lead, Idle lead ∧ cur.Spans lead next := by
  have hround : ∀ mid last captured, (∃ lead, Idle lead ∧ cur.Spans lead mid) →
      blankLine.outcome table depth mid = some (last, captured) →
      ∃ lead, Idle lead ∧ cur.Spans lead last := by
    rintro mid last captured ⟨lead, hlead, hs⟩ hround
    obtain ⟨line, hline, -, hs'⟩ := blankLine_idle hround
    exact ⟨lead ++ line, hlead.append hline, hs.trans hs'⟩
  exact repeated_invariant hround ⟨[], .nil, .refl cur⟩ h

end

end DiagramText.Peg
