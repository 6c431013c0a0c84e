import DiagramText.Proofs.Peg.Lexeme

/-!
# Taking a text

A rule takes a text if it matches exactly that text wherever it stands in front of what follows, and it
misses a text if it does not match at its start. What the parts of a rule take or miss decides what the rule
does, with a lemma for each form of rule. So a document that is put together piece by piece is parsed piece by
piece, from `takes_lit` for its marks up to `parse_document` for the whole of it.
-/

namespace DiagramText.Peg

/-- Whether a rule matches exactly `text` wherever that stands in front of `rest`, and what it leaves then. -/
def Rule.Takes (table : List (String × Rule)) (depth : Nat) (r : Rule) (text rest : List Char)
    (leaves : Nat → Fragment) : Prop :=
  ∀ offset, r.outcome table depth ⟨offset, text ++ rest⟩ =
    some (⟨offset + Chars.byteSize text, rest⟩, leaves offset)

/-- Whether a rule does not match at `text`, wherever that stands. -/
def Rule.Misses (table : List (String × Rule)) (depth : Nat) (r : Rule) (text : List Char) : Prop :=
  ∀ offset, r.outcome table depth ⟨offset, text⟩ = none

variable {table : List (String × Rule)} {depth : Nat} {r : Rule} {rules : List Rule}
  {text more rest : List Char} {leaves : Nat → Fragment} {fields : Nat → List (String × Node)}

/-! ## Characters and texts -/

theorem takes_lit (text : String) (rest : List Char) :
    (lit text).Takes table depth text.toList rest fun _ => .empty :=
  fun offset => outcome_lit text offset rest

theorem takes_lit_of {s : String} (hs : s.toList = text) : (lit s).Takes table depth text rest fun _ => .empty :=
  hs ▸ takes_lit s rest

theorem takes_anyCase (text : String) (rest : List Char) :
    (litAnyCase text).Takes table depth text.toList rest fun _ => .empty := by
  intro offset
  have hskip : Cursor.skip? ⟨offset, text.toList ++ rest⟩ text true =
      some ⟨offset + Chars.byteSize text.toList, rest⟩ :=
    Cursor.skip?_eq_some.2 ⟨text.toList, rfl, rfl, rfl⟩
  rw [litAnyCase, outcome_literal, hskip, Option.map_some]

theorem misses_lit {text : String} (h : ¬ text.toList <+: more) : (lit text).Misses table depth more := by
  intro offset
  rw [lit, outcome_literal, Option.map_eq_none_iff, Cursor.skip?_eq_none]
  rintro found rest (rfl : found = _) rfl
  exact h (List.prefix_append _ rest)

theorem takes_char {set : CharClass} {c : Char} (h : set.contains c = true) (rest : List Char) :
    (Rule.chars set).Takes table depth [c] rest fun _ => .empty := by
  intro offset
  have next : Cursor.next? ⟨offset, [c] ++ rest⟩ set = some ⟨offset + Chars.byteSize [c], rest⟩ :=
    Cursor.next?_eq_some.2 ⟨c, h, rfl, rfl⟩
  rw [outcome_chars, next, Option.map_some]

theorem misses_char {set : CharClass} (h : ∀ c ∈ more.head?, set.contains c = false) :
    (Rule.chars set).Misses table depth more := by
  intro offset
  rw [outcome_chars, Option.map_eq_none_iff, Cursor.next?_eq_none]
  rintro c rest (rfl : more = _)
  exact h c rfl

theorem takes_many_chars {set : CharClass} (h : ∀ c ∈ text, set.contains c = true)
    (hstop : ∀ c ∈ rest.head?, set.contains c = false) :
    (many (.chars set)).Takes table depth text rest fun _ => .items [] := by
  intro offset
  rw [outcome_many_chars, Cursor.past_append h hstop]

theorem takes_many1_chars {set : CharClass} (hne : text ≠ []) (h : ∀ c ∈ text, set.contains c = true)
    (hstop : ∀ c ∈ rest.head?, set.contains c = false) :
    (many1 (.chars set)).Takes table depth text rest fun _ => .items [] := by
  intro offset
  obtain ⟨c, cs, rfl⟩ := List.exists_cons_of_ne_nil hne
  rw [outcome_many1_chars, Cursor.past_append h hstop, List.cons_append, List.head?_cons, Option.any_some,
    h c List.mem_cons_self, if_pos rfl]

theorem misses_many1_chars {set : CharClass} (h : ∀ c ∈ more.head?, set.contains c = false) :
    (many1 (.chars set)).Misses table depth more := by
  intro offset
  rw [outcome_many1_chars, if_neg]
  cases more with
  | nil => exact Bool.false_ne_true
  | cons c more => simp [h c rfl]

/-! ## Rules from rules -/

theorem takes_sequence_nil (rest : List Char) :
    (Rule.sequence []).Takes table depth [] rest fun _ => .fields [] :=
  fun offset => outcome_sequence_nil ⟨offset, rest⟩

theorem Rule.Takes.cons (h : r.Takes table depth text (more ++ rest) leaves)
    (hs : (Rule.sequence rules).Takes table depth more rest fun offset => .fields (fields offset)) :
    (Rule.sequence (r :: rules)).Takes table depth (text ++ more) rest fun offset =>
      .fields ((leaves offset).toFields ++ fields (offset + Chars.byteSize text)) := by
  intro offset
  rw [List.append_assoc, outcome_sequence_cons, h offset, Option.bind_some]
  dsimp only
  rw [hs, Option.map_some, Chars.byteSize_append, Nat.add_assoc]
  rfl

theorem Rule.Takes.toFields_eq_nil (h : r.Takes table depth text rest leaves) (hr : r.capturesNone = true)
    (offset : Nat) : (leaves offset).toFields = [] :=
  toFields_of_capturesNone hr _ _ _ (h offset)

/-- A part of a sequence that captures nothing. -/
theorem Rule.Takes.skip (h : r.Takes table depth text (more ++ rest) leaves) (hr : r.capturesNone = true)
    (hs : (Rule.sequence rules).Takes table depth more rest fun offset => .fields (fields offset)) :
    (Rule.sequence (r :: rules)).Takes table depth (text ++ more) rest fun offset =>
      .fields (fields (offset + Chars.byteSize text)) := by
  have := h.cons hs
  simpa only [h.toFields_eq_nil hr, List.nil_append] using this

/-- The last part of a sequence. -/
theorem Rule.Takes.last (h : r.Takes table depth text rest leaves) :
    (Rule.sequence [r]).Takes table depth text rest fun offset => .fields (leaves offset).toFields := by
  have whole : r.Takes table depth text ([] ++ rest) leaves := h
  simpa only [List.append_nil] using whole.cons (takes_sequence_nil rest)

/-- The last part of a sequence, if it captures nothing. -/
theorem Rule.Takes.skipLast (h : r.Takes table depth text rest leaves) (hr : r.capturesNone = true) :
    (Rule.sequence [r]).Takes table depth text rest fun _ => .fields [] := by
  have := h.last
  simpa only [h.toFields_eq_nil hr] using this

theorem Rule.Takes.optional (h : r.Takes table depth text rest leaves) :
    (Rule.optional r).Takes table depth text rest leaves := by
  intro offset
  rw [outcome_optional, h offset, Option.getD_some]

theorem Rule.Misses.optional (h : r.Misses table depth rest) :
    (Rule.optional r).Takes table depth [] rest fun _ => .empty := by
  intro offset
  rw [List.nil_append, outcome_optional, h offset, Option.getD_none]
  rfl

/-- A part of a sequence behind which the rest of it takes nothing. -/
theorem Rule.Takes.consNil (h : r.Takes table depth text rest leaves)
    (hs : (Rule.sequence rules).Takes table depth [] rest fun offset => .fields (fields offset)) :
    (Rule.sequence (r :: rules)).Takes table depth text rest fun offset =>
      .fields ((leaves offset).toFields ++ fields (offset + Chars.byteSize text)) := by
  have whole : r.Takes table depth text ([] ++ rest) leaves := h
  simpa only [List.append_nil] using whole.cons hs

/-- A part of a sequence that takes nothing. -/
theorem Rule.Takes.nilSkip (h : r.Takes table depth [] (text ++ rest) leaves) (hr : r.capturesNone = true)
    (hs : (Rule.sequence rules).Takes table depth text rest fun offset => .fields (fields offset)) :
    (Rule.sequence (r :: rules)).Takes table depth text rest fun offset => .fields (fields offset) :=
  h.skip hr hs

/-- An optional part of a sequence that is left out. -/
theorem Rule.Misses.leaveOut (h : r.Misses table depth (text ++ rest))
    (hs : (Rule.sequence rules).Takes table depth text rest fun offset => .fields (fields offset)) :
    (Rule.sequence (.optional r :: rules)).Takes table depth text rest fun offset => .fields (fields offset) :=
  h.optional.cons hs

theorem Rule.Misses.leaveOutLast (h : r.Misses table depth rest) :
    (Rule.sequence [.optional r]).Takes table depth [] rest fun _ => .fields [] :=
  h.leaveOut (takes_sequence_nil rest)

theorem Rule.Misses.sequence (h : r.Misses table depth more) :
    (Rule.sequence (r :: rules)).Misses table depth more := by
  intro offset
  rw [outcome_sequence_cons, h offset, Option.bind_none]

theorem Rule.Takes.misses (h : r.Takes table depth text rest leaves)
    (hs : (Rule.sequence rules).Misses table depth rest) :
    (Rule.sequence (r :: rules)).Misses table depth (text ++ rest) := by
  intro offset
  rw [outcome_sequence_cons, h offset, Option.bind_some]
  dsimp only
  rw [hs, Option.map_none]

theorem Rule.Takes.nil_misses (h : r.Takes table depth [] rest leaves)
    (hs : (Rule.sequence rules).Misses table depth rest) :
    (Rule.sequence (r :: rules)).Misses table depth rest :=
  h.misses hs

theorem Rule.Takes.choice (h : r.Takes table depth text rest leaves) :
    (Rule.choice (r :: rules)).Takes table depth text rest leaves := by
  intro offset
  rw [outcome_choice_cons, h offset, Option.some_or]

theorem Rule.Misses.choice (h : r.Misses table depth (text ++ rest))
    (hs : (Rule.choice rules).Takes table depth text rest leaves) :
    (Rule.choice (r :: rules)).Takes table depth text rest leaves := by
  intro offset
  rw [outcome_choice_cons, h offset, Option.none_or, hs]

theorem misses_choice_nil : (Rule.choice []).Misses table depth more :=
  fun offset => outcome_choice_nil ⟨offset, more⟩

theorem Rule.Misses.or (h : r.Misses table depth more) (hs : (Rule.choice rules).Misses table depth more) :
    (Rule.choice (r :: rules)).Misses table depth more := by
  intro offset
  rw [outcome_choice_cons, h offset, Option.none_or, hs]

theorem outcome_choice_append (rules more : List Rule) (cur : Cursor) :
    (Rule.choice (rules ++ more)).outcome table depth cur =
      ((Rule.choice rules).outcome table depth cur).or ((Rule.choice more).outcome table depth cur) := by
  induction rules with
  | nil => rw [outcome_choice_nil, Option.none_or, List.nil_append]
  | cons r rules ih => rw [List.cons_append, outcome_choice_cons, outcome_choice_cons, ih, Option.or_assoc]

theorem Rule.Takes.choiceAppend (h : (Rule.choice rules).Takes table depth text rest leaves) (others : List Rule) :
    (Rule.choice (rules ++ others)).Takes table depth text rest leaves := by
  intro offset
  rw [outcome_choice_append, h offset, Option.some_or]

theorem Rule.Misses.choiceAppend {others : List Rule} (h : (Rule.choice rules).Misses table depth (text ++ rest))
    (hs : (Rule.choice others).Takes table depth text rest leaves) :
    (Rule.choice (rules ++ others)).Takes table depth text rest leaves := by
  intro offset
  rw [outcome_choice_append, h offset, Option.none_or, hs]

theorem Rule.Misses.orAppend {others : List Rule} (h : (Rule.choice rules).Misses table depth more)
    (hs : (Rule.choice others).Misses table depth more) : (Rule.choice (rules ++ others)).Misses table depth more := by
  intro offset
  rw [outcome_choice_append, h offset, Option.none_or, hs]

theorem Rule.Misses.notAhead (h : r.Misses table depth rest) :
    (Rule.notAhead r).Takes table depth [] rest fun _ => .empty := by
  intro offset
  rw [List.nil_append, outcome_notAhead, h offset, if_pos rfl]
  rfl

theorem Rule.Takes.misses_notAhead (h : r.Takes table depth text rest leaves) :
    (Rule.notAhead r).Misses table depth (text ++ rest) := by
  intro offset
  rw [outcome_notAhead, h offset]
  rfl

theorem Rule.Takes.labelled (h : r.Takes table depth text rest leaves) (label : String) :
    (Rule.labelled label r).Takes table depth text rest leaves := by
  intro offset
  rw [outcome_labelled, h offset]

theorem Rule.Misses.labelled (h : r.Misses table depth more) (label : String) :
    (Rule.labelled label r).Misses table depth more := by
  intro offset
  rw [outcome_labelled, h offset]

theorem Rule.Takes.quiet (h : r.Takes table depth text rest leaves) :
    (Rule.quiet r).Takes table depth text rest leaves := by
  intro offset
  rw [outcome_quiet, h offset]

theorem Rule.Misses.quiet (h : r.Misses table depth more) : (Rule.quiet r).Misses table depth more := by
  intro offset
  rw [outcome_quiet, h offset]

theorem Rule.Takes.ref {name : String} (hr : table.lookup name = some r)
    (h : r.Takes table depth text rest leaves) : (Rule.ref name).Takes table (depth + 1) text rest leaves := by
  intro offset
  rw [outcome_ref, hr, Option.bind_some, h offset]

theorem Rule.Misses.ref {name : String} (hr : table.lookup name = some r) (h : r.Misses table depth more) :
    (Rule.ref name).Misses table (depth + 1) more := by
  intro offset
  rw [outcome_ref, hr, Option.bind_some, h offset]

theorem spanTo_taken (offset : Nat) (text rest : List Char) :
    (⟨offset, text ++ rest⟩ : Cursor).spanTo ⟨offset + Chars.byteSize text, rest⟩ =
      ⟨String.ofList text, offset⟩ :=
  Cursor.Spans.spanTo ⟨rfl, rfl⟩

theorem Rule.Takes.capture (h : r.Takes table depth text rest leaves) (field : String) :
    (Rule.capture field r).Takes table depth text rest fun offset =>
      .fields [(field, (leaves offset).toNode ⟨String.ofList text, offset⟩)] := by
  intro offset
  rw [outcome_capture, h offset, Option.map_some]
  dsimp only
  rw [spanTo_taken]

/-- What captures nothing is captured as a token. -/
theorem Rule.Takes.tokenOf (h : r.Takes table depth text rest leaves) (hr : r.capturesNone = true) (field : String) :
    (Rule.capture field r).Takes table depth text rest fun offset =>
      .fields [(field, .token ⟨String.ofList text, offset⟩)] := by
  intro offset
  refine (h.capture field offset).trans ?_
  dsimp only
  rcases eq_empty_of_capturesNone hr _ _ _ (h offset) with e | e <;> rw [e] <;> rfl

theorem Rule.Takes.token {s : String} (h : r.Takes table depth s.toList rest leaves)
    (hr : r.capturesNone = true) (field : String) :
    (Rule.capture field r).Takes table depth s.toList rest fun offset =>
      .fields [(field, .token ⟨s, offset⟩)] := by
  have taken := h.tokenOf hr field
  rwa [String.ofList_toList] at taken

/-- What captures something is captured as a tree. -/
theorem Rule.Takes.tree (h : r.Takes table depth text rest fun offset => .fields (fields offset))
    (hne : ∀ offset, fields offset ≠ []) (field : String) :
    (Rule.capture field r).Takes table depth text rest fun offset =>
      .fields [(field, .tree (.mk ⟨String.ofList text, offset⟩ (fields offset)))] := by
  intro offset
  refine (h.capture field offset).trans ?_
  obtain ⟨first, later, e⟩ := List.exists_cons_of_ne_nil (hne offset)
  dsimp only
  rw [e]
  rfl

theorem Rule.Misses.capture (h : r.Misses table depth more) (field : String) :
    (Rule.capture field r).Misses table depth more := by
  intro offset
  rw [outcome_capture, h offset, Option.map_none]

/-- A part of a sequence that is captured if it is found. -/
theorem takes_optionalToken (quiet : r.capturesNone = true) {found : Option String}
    (hsome : ∀ s ∈ found, ∃ leaves, r.Takes table depth s.toList (more ++ rest) leaves)
    (hnone : found = none → r.Misses table depth (more ++ rest)) (field : String)
    (hs : (Rule.sequence rules).Takes table depth more rest fun offset => .fields (fields offset)) :
    ∃ fields' : Nat → List (String × Node),
      (Rule.sequence (.optional (.capture field r) :: rules)).Takes table depth
        ((found.getD "").toList ++ more) rest (fun offset => .fields (fields' offset)) ∧
      ∀ offset, ∃ later, fields' offset = (found.map fun s => (field, .token ⟨s, offset⟩)).toList ++ fields later := by
  cases found with
  | none => exact ⟨fields, ((hnone rfl).capture field).leaveOut hs, fun offset => ⟨offset, rfl⟩⟩
  | some s =>
    obtain ⟨leaves, takes⟩ := hsome s rfl
    exact ⟨_, (takes.token quiet field).optional.cons hs, fun offset => ⟨_, rfl⟩⟩

/-! ## Repetitions -/

theorem Rule.Misses.many (h : r.Misses table depth rest) :
    (many r).Takes table depth [] rest fun _ => .items [] :=
  fun offset => outcome_many_of_none (h offset)

theorem Rule.Takes.many {trees : Nat → List Tree} (h : r.Takes table depth text (more ++ rest) leaves)
    (hne : text ≠ []) (hs : (Peg.many r).Takes table depth more rest fun offset => .items (trees offset)) :
    (Peg.many r).Takes table depth (text ++ more) rest fun offset =>
      .items ((leaves offset).round ⟨String.ofList text, offset⟩ ++ trees (offset + Chars.byteSize text)) := by
  intro offset
  have moved : (⟨offset + Chars.byteSize text, more ++ rest⟩ : Cursor) ≠ ⟨offset, text ++ (more ++ rest)⟩ := by
    intro same
    exact hne (List.append_left_eq_self.1 (congrArg Cursor.rest same).symm)
  have later := hs (offset + Chars.byteSize text)
  rw [Peg.many] at later
  rw [List.append_assoc, Peg.many, outcome_repeated, h offset]
  simp only [reduceCtorEq, ↓reduceIte, moved, Nat.zero_sub, Option.map_none, later, Option.map_some,
    spanTo_taken, Fragment.behind, Chars.byteSize_append, Nat.add_assoc]

/-- A round that captures nothing. -/
theorem Rule.Takes.manySkip (h : r.Takes table depth text (more ++ rest) leaves) (hr : r.capturesNone = true)
    (hne : text ≠ []) (hs : (Peg.many r).Takes table depth more rest fun _ => .items []) :
    (Peg.many r).Takes table depth (text ++ more) rest fun _ => .items [] := by
  have := h.many hne hs
  simpa only [Fragment.round, h.toFields_eq_nil hr, ↓reduceIte, List.append_nil] using this

/-- A character as often as it comes. -/
theorem takes_many_lit {s : String} {c : Char} (hs : s.toList = [c]) (hrest : ∀ d ∈ rest.head?, d ≠ c) (n : Nat) :
    (Peg.many (lit s)).Takes table depth (List.replicate n c) rest fun _ => .items [] := by
  induction n with
  | zero =>
    refine (misses_lit ?_).many
    rintro ⟨more, rfl⟩
    rw [hs] at hrest
    exact hrest c rfl rfl
  | succ n ih =>
    have one : (lit s).Takes table depth [c] (List.replicate n c ++ rest) fun _ => .empty := takes_lit_of hs
    exact one.manySkip rfl (by simp) ih

theorem Rule.Misses.many1 (h : r.Misses table depth more) : (Peg.many1 r).Misses table depth more := by
  intro offset
  rw [Peg.many1, outcome_repeated, h offset]
  rfl

/-! ## Lexemes -/

/-- Spaces and tabs are taken in front of something else. -/
theorem takes_blanks {blanks : List Char} (hb : ∀ c ∈ blanks, c = ' ' ∨ c = '\t')
    (h : ∀ c ∈ rest.head?, c ≠ ' ' ∧ c ≠ '\t') : ws.Takes table depth blanks rest fun _ => .items [] := by
  refine (takes_many_chars ?_ fun c hc => ?_).quiet
  · simpa [CharClass.contains] using hb
  · have := h c hc
    simp [CharClass.contains, this]

theorem takes_ws_nil (h : ∀ c ∈ rest.head?, c ≠ ' ' ∧ c ≠ '\t') : ws.Takes table depth [] rest fun _ => .items [] :=
  takes_blanks nofun h

theorem takes_space (h : ∀ c ∈ rest.head?, c ≠ ' ' ∧ c ≠ '\t') :
    ws1.Takes table depth [' '] rest fun _ => .items [] := by
  refine (takes_many1_chars (by simp) (by simp [CharClass.contains]) fun c hc => ?_).labelled _
  have := h c hc
  simp [CharClass.contains, this]

theorem takes_textUntil {stop : String} (h : ∀ c ∈ text, c ∉ stop.toList)
    (hstop : ∀ c ∈ rest.head?, c ∈ stop.toList) :
    (textUntil stop).Takes table depth text rest fun _ => .items [] := by
  refine (takes_many_chars ?_ ?_).quiet
  · simpa [CharClass.contains] using h
  · simpa [CharClass.contains] using hstop

theorem takes_text1Until {stop : String} (hne : text ≠ []) (h : ∀ c ∈ text, c ∉ stop.toList)
    (hstop : ∀ c ∈ rest.head?, c ∈ stop.toList) (label : String) :
    (text1Until stop label).Takes table depth text rest fun _ => .items [] := by
  refine (Rule.Takes.quiet (takes_many1_chars hne ?_ ?_)).labelled label
  · simpa [CharClass.contains] using h
  · simpa [CharClass.contains] using hstop

theorem takes_word (hne : text ≠ []) (h : ∀ c ∈ text, isWordChar c = true)
    (hstop : ∀ c ∈ rest.head?, isWordChar c = false) : word.Takes table depth text rest fun _ => .items [] :=
  Rule.Takes.labelled (@takes_many1_chars _ _ _ _ (.satisfying isWordChar "word character") hne h hstop) _

theorem takes_keyword (text : String) (h : ∀ c ∈ rest.head?, isWordChar c = false) :
    (keyword text).Takes table depth text.toList rest fun _ => .fields [] := by
  have stop : wordChar.Misses table depth rest := misses_char h
  simpa [keyword] using (takes_lit text rest).skip rfl (stop.notAhead.skipLast rfl)

theorem takes_headline (text : String) (rest : List Char) :
    (keyword text).Takes table depth text.toList (['\n'] ++ rest) fun _ => .fields [] :=
  takes_keyword text (by simp [isWordChar])

/-- What may stand at the end of a line: a line feed, or nothing where the input ends. -/
def Ends (ending rest : List Char) : Prop := ending = ['\n'] ∨ ending = [] ∧ rest = []

theorem takes_eol_of {ending : List Char} (h : ∀ c ∈ (ending ++ rest).head?, c ≠ ' ' ∧ c ≠ '\t' ∧ c ≠ '%')
    (stop : (Rule.choice [newline, endOfInput]).Takes table depth ending rest fun _ => .empty) :
    eol.Takes table depth ending rest fun _ => .fields [] := by
  have noComment : comment.Misses table depth (ending ++ rest) := by
    refine (misses_lit ?_).sequence
    rintro ⟨more, e⟩
    exact (h '%' (by rw [← e]; rfl)).2.2 rfl
  have blanks : ∀ c ∈ (ending ++ rest).head?, c ≠ ' ' ∧ c ≠ '\t' := fun c hc => ⟨(h c hc).1, (h c hc).2.1⟩
  have last := (noComment.optional.skip rfl (stop.skipLast rfl)).labelled "end of line"
  exact (takes_ws_nil blanks).skip rfl (last.skipLast rfl)

/-- Both forms of a line end are taken. -/
theorem takes_lineEnd {ending : List Char} (h : ending = ['\n'] ∨ ending = ['\r', '\n']) (rest : List Char) :
    eol.Takes table depth ending rest fun _ => .fields [] :=
  takes_eol_of (by obtain rfl | rfl := h <;> simp)
    (Rule.Takes.choice fun offset => outcome_newline_ending h offset rest)

theorem takes_eol {ending : List Char} (h : Ends ending rest) :
    eol.Takes table depth ending rest fun _ => .fields [] := by
  obtain rfl | ⟨rfl, rfl⟩ := h
  · exact takes_lineEnd (.inl rfl) rest
  · refine takes_eol_of (by simp) (Rule.Misses.choice ?_ (Rule.Takes.choice fun offset => rfl))
    exact fun offset => outcome_newline_of_inLine (by simp)

/-- Whether a text starts with a character that stands neither in a blank line nor before a statement. -/
def Inked (text : List Char) : Prop := ∃ c ∈ text.head?, c ∉ [' ', '\t', '\r', '\n', '%']

namespace Inked

theorem ne_nil (h : Inked text) : text ≠ [] := by
  rintro rfl
  obtain ⟨c, hc, -⟩ := h
  cases hc

theorem append (h : Inked text) (more : List Char) : Inked (text ++ more) := by
  obtain ⟨c, hc, inked⟩ := h
  obtain ⟨cs, rfl⟩ := List.head?_eq_some_iff.1 hc
  exact ⟨c, rfl, inked⟩

theorem of_append (h : Inked (text ++ more)) (hne : text ≠ []) : Inked text := by
  obtain ⟨c, cs, rfl⟩ := List.exists_cons_of_ne_nil hne
  exact h

theorem head (h : Inked text) : ∀ c ∈ text.head?, (c ≠ ' ' ∧ c ≠ '\t') ∧ (c ≠ '\r' ∧ c ≠ '\n') ∧ c ≠ '%' := by
  obtain ⟨d, hd, inked⟩ := h
  intro c hc
  obtain rfl := Option.some.inj (hc.symm.trans hd)
  simp only [List.mem_cons, List.not_mem_nil, or_false, not_or] at inked
  exact ⟨⟨inked.1, inked.2.1⟩, ⟨inked.2.2.1, inked.2.2.2.1⟩, inked.2.2.2.2⟩

theorem takes_blanks (h : Inked rest) {blanks : List Char} (hb : ∀ c ∈ blanks, c = ' ' ∨ c = '\t') :
    ws.Takes table depth blanks rest fun _ => .items [] := Peg.takes_blanks hb fun c hc => (h.head c hc).1

theorem takes_ws (h : Inked rest) : ws.Takes table depth [] rest fun _ => .items [] := h.takes_blanks nofun

theorem misses_comment (h : Inked rest) : comment.Misses table depth rest := by
  refine (misses_lit ?_).sequence
  rintro ⟨more, rfl⟩
  exact (h.head '%' rfl).2.2 rfl

theorem misses_newline (h : Inked rest) : newline.Misses table depth rest :=
  fun _ => outcome_newline_of_inLine fun c hc => (h.head c hc).2.1

/-- A line is not blank if something stands on it, be it indented. -/
theorem misses_indented (h : Inked more) {blanks : List Char} (hb : ∀ c ∈ blanks, c = ' ' ∨ c = '\t') :
    blankLine.Misses table depth (blanks ++ more) :=
  Rule.Misses.quiet
    ((h.takes_blanks hb).misses (h.misses_comment.optional.nil_misses h.misses_newline.sequence))

theorem misses_blankLine (h : Inked more) : blankLine.Misses table depth more :=
  @misses_indented _ _ _ h [] nofun

end Inked

theorem misses_blankLine_nil : blankLine.Misses table depth [] :=
  fun _ => outcome_blankLine_of_not_mem List.not_mem_nil

/-! ## Documents -/

/-- A statement on a line of its own. What stands in front of the statement is taken by `before`, and what stands
behind it by `after`. -/
theorem takes_statementLine {before statement after : Rule} {indent ending : List Char} {front : Nat → Fragment}
    (hblank : blankLine.Misses table depth (indent ++ (text ++ (ending ++ rest))))
    (hbefore : before.Takes table depth indent (text ++ (ending ++ rest)) front)
    (h : statement.Takes table depth text (ending ++ rest) leaves)
    (hafter : after.Takes table depth ending rest fun _ => .fields []) (quiet : after.capturesNone = true) :
    (Rule.choice [blankLine, .sequence [before, statement, after]]).Takes table depth (indent ++ (text ++ ending)) rest
      fun offset => .fields ((front offset).toFields ++ (leaves (offset + Chars.byteSize indent)).toFields) := by
  have statementOn := h.cons (hafter.skipLast quiet)
  rw [← List.append_assoc] at hbefore
  have line := hbefore.cons statementOn
  rw [← List.append_assoc text, ← List.append_assoc] at hblank
  have round : (Rule.choice [blankLine, .sequence [before, statement, after]]).Takes table depth
      (indent ++ (text ++ ending)) rest _ := hblank.choice line.choice
  simpa only [Fragment.toFields, List.append_nil] using round

/-- A statement on a line of its own, and the lines behind it. -/
theorem takes_lines_cons {before statement after : Rule} {indent ending : List Char} {front : Nat → Fragment}
    {trees : Nat → List Tree} (hne : text ≠ [])
    (hblank : blankLine.Misses table depth (indent ++ (text ++ (ending ++ (more ++ rest)))))
    (hbefore : before.Takes table depth indent (text ++ (ending ++ (more ++ rest))) front)
    (h : statement.Takes table depth text (ending ++ (more ++ rest)) leaves)
    (hafter : after.Takes table depth ending (more ++ rest) fun _ => .fields [])
    (quiet : after.capturesNone = true)
    (hs : (many (.choice [blankLine, .sequence [before, statement, after]])).Takes table depth more rest
      fun offset => .items (trees offset)) :
    (many (.choice [blankLine, .sequence [before, statement, after]])).Takes table depth
      (indent ++ (text ++ ending) ++ more) rest fun offset =>
        .items (Fragment.round
          (.fields ((front offset).toFields ++ (leaves (offset + Chars.byteSize indent)).toFields))
          ⟨String.ofList (indent ++ (text ++ ending)), offset⟩ ++
            trees (offset + Chars.byteSize (indent ++ (text ++ ending)))) :=
  (takes_statementLine hblank hbefore h hafter quiet).many (by simp [hne]) hs

theorem takes_statementLines_nil {statement : Rule} (h : statement.Misses table depth []) :
    (statementLines statement).Takes table depth [] [] fun _ => .items [] := by
  refine (misses_blankLine_nil.or (Rule.Misses.or ?_ misses_choice_nil)).many
  exact (takes_ws_nil (by simp)).nil_misses h.sequence

theorem takes_statementLines_cons {statement : Rule} {ending : List Char} {trees : Nat → List Tree}
    (inked : Inked text) (h : statement.Takes table depth text (ending ++ (more ++ rest)) leaves)
    (hend : Ends ending (more ++ rest))
    (hs : (statementLines statement).Takes table depth more rest fun offset => .items (trees offset)) :
    (statementLines statement).Takes table depth (text ++ ending ++ more) rest fun offset =>
      .items (Fragment.round (.fields (leaves offset).toFields) ⟨String.ofList (text ++ ending), offset⟩ ++
        trees (offset + Chars.byteSize (text ++ ending))) := by
  have inkedLine := inked.append (ending ++ (more ++ rest))
  have blank : blankLine.Misses table depth ([] ++ (text ++ (ending ++ (more ++ rest)))) :=
    inkedLine.misses_blankLine
  have := takes_lines_cons inked.ne_nil blank inkedLine.takes_ws h (takes_eol hend) rfl hs
  simpa only [statementLines, List.nil_append, Fragment.toFields, List.flatMap_nil, Chars.byteSize_nil,
    Nat.add_zero] using this

/-- An input is parsed when the rule takes all of it. -/
theorem parseWithin_of_takes {g : Grammar} (h : r.Takes g.rules depth text [] leaves) :
    g.parseWithin depth r (String.ofList text) = .ok (.mk ⟨String.ofList text, 0⟩ (leaves 0).toFields) := by
  have found := h 0
  rw [List.append_nil] at found
  exact parseWithin_eq_ok.2 ⟨_, _, by rw [Cursor.start, String.toList_ofList, found], rfl, rfl⟩

theorem parse_of_takes {g : Grammar} (h : g.root.Takes g.rules depth text [] leaves) :
    g.parse depth (String.ofList text) = .ok (.mk ⟨String.ofList text, 0⟩ (leaves 0).toFields) :=
  parseWithin_of_takes h

/-- A document is parsed when its header and its body are taken. -/
theorem parse_document {g : Grammar} {header body : Rule} (hroot : g.root = document header body)
    {head ending : List Char} (inked : Inked head)
    (hheader : header.Takes g.rules depth head (ending ++ text) leaves)
    (quiet : header.capturesNone = true) (hend : Ends ending text)
    (hbody : body.Takes g.rules depth text [] fun offset => .fields (fields offset)) :
    ∃ span offset, g.parse depth (String.ofList (head ++ ending ++ text)) = .ok (.mk span (fields offset)) := by
  have stop : endOfInput.Takes g.rules depth [] [] fun _ => .empty := fun _ => rfl
  have bodyOn : (Rule.sequence [body, endOfInput]).Takes g.rules depth text [] fun offset =>
      .fields (fields offset) := by
    have whole : body.Takes g.rules depth text ([] ++ []) fun offset =>
      .fields (fields offset) := hbody
    simpa only [List.append_nil, Fragment.toFields] using whole.cons (stop.skipLast rfl)
  have headOn : header.Takes g.rules depth head (ending ++ text ++ []) leaves := by
    rwa [List.append_nil]
  have fromHead := headOn.skip quiet ((takes_eol (by rwa [List.append_nil])).skip rfl bodyOn)
  have start : Inked (head ++ (ending ++ text) ++ []) := (inked.append _).append _
  have whole := start.misses_blankLine.many.skip rfl (start.takes_ws.skip rfl fromHead)
  rw [List.append_assoc]
  exact ⟨_, _, parse_of_takes (by rw [hroot]; exact whole)⟩

theorem list_toNode (span token : Token) (field : String) (trees : List Tree) :
    (Tree.mk span [(field, (Fragment.items trees).toNode token)]).list field = trees := by
  cases trees <;> simp [Tree.list, Tree.get?, Tree.fields, Fragment.toNode, Node.list?]

/-- The rounds of a document whose body is a repetition. -/
theorem exists_rounds {g : Grammar} {header round : Rule} {field : String}
    (hroot : g.root = document header (.capture field (many round))) {head ending : List Char}
    {trees : Nat → List Tree} (inked : Inked head)
    (hheader : header.Takes g.rules depth head (ending ++ text) leaves)
    (quiet : header.capturesNone = true) (hend : Ends ending text)
    (hbody : (many round).Takes g.rules depth text [] fun offset => .items (trees offset)) :
    ∃ t offset, g.parse depth (String.ofList (head ++ ending ++ text)) = .ok t ∧ t.list field = trees offset := by
  obtain ⟨span, offset, parsed⟩ := parse_document hroot inked hheader quiet hend (hbody.capture field)
  exact ⟨_, _, parsed, list_toNode span _ field _⟩

/-- The round of a document that has one line behind its header. -/
theorem exists_round {g : Grammar} {header before statement : Rule} {field : String} {front : Nat → Fragment}
    (hroot : g.root =
      document header (.capture field (many (.choice [blankLine, .sequence [before, statement, eol]]))))
    {head : List Char} (inked : Inked head)
    (hheader : header.Takes g.rules depth head (['\n'] ++ text) fun _ => .fields [])
    (quiet : header.capturesNone = true) (inkedText : Inked text)
    (hbefore : before.Takes g.rules depth [] text front)
    (h : statement.Takes g.rules depth text [] leaves)
    (hstop : (Rule.sequence [before, statement, eol]).Misses g.rules depth []) :
    ∃ t span offset, g.parse depth (String.ofList (head ++ ['\n'] ++ text)) = .ok t ∧
      t.list field = Fragment.round (.fields ((front offset).toFields ++ (leaves offset).toFields)) span := by
  have blank : blankLine.Misses g.rules depth ([] ++ (text ++ ([] ++ ([] ++ [])))) := by
    simpa using inkedText.misses_blankLine
  have beforeOn : before.Takes g.rules depth [] (text ++ ([] ++ ([] ++ []))) front := by
    simpa using hbefore
  have rounds := takes_lines_cons inkedText.ne_nil blank beforeOn h (takes_eol (.inr ⟨rfl, rfl⟩)) rfl
    (misses_blankLine_nil.or (hstop.or misses_choice_nil)).many
  simp only [List.append_nil, List.nil_append, Chars.byteSize_nil, Nat.add_zero] at rounds
  obtain ⟨t, offset, parsed, found⟩ := exists_rounds hroot inked hheader quiet (.inl rfl) rounds
  exact ⟨t, _, offset, parsed, found⟩

end DiagramText.Peg
