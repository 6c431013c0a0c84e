import DiagramText.Proofs.Peg.Takes

/-!
# Keywords in front of texts

A keyword is found at the start of a text if the text begins with it and goes on with no character of a word
(`hasKeyword`). A sequence that starts with a keyword misses a text if the rest of it misses whatever follows
the keyword there (`misses_headed`), and a statement that ends with its line takes no text behind the last line
end (`rest_eq_nil_of_eol`).
-/

namespace DiagramText.Peg

/-- Whether a text begins with the keyword. -/
def hasKeyword (word : String) (text : List Char) : Bool :=
  match Chars.dropStart? word.toList text with
  | some rest => !rest.head?.any isWordChar
  | none => false

theorem hasKeyword_iff {word : String} {text : List Char} :
    hasKeyword word text = true ↔
      ∃ rest, text = word.toList ++ rest ∧ ∀ c ∈ rest.head?, isWordChar c = false := by
  rw [hasKeyword]
  cases h : Chars.dropStart? word.toList text with
  | none =>
    refine ⟨nofun, fun ⟨rest, e, _⟩ => ?_⟩
    rw [Chars.dropStart?_eq_some.2 e] at h
    cases h
  | some rest =>
    obtain rfl := Chars.dropStart?_eq_some.1 h
    simp only [List.append_cancel_left_eq, exists_eq_left', Bool.not_eq_true', Option.any_eq_false]
    exact ⟨fun stop c hc => by simpa using stop c hc, fun stop c hc => by simpa using stop c hc⟩

/-- What is found at the start of a text, up to a mark that it does not hold. -/
theorem exists_append_of_mark {front found rest more : List Char} {mark : Char} (hmark : mark ∉ found)
    (e : front ++ mark :: more = found ++ rest) :
    ∃ behind, front = found ++ behind ∧ rest = behind ++ mark :: more := by
  obtain ⟨more', rfl, e'⟩ | ⟨behind, e', rfl⟩ := List.append_eq_append_iff.1 e
  · cases more' with
    | nil => exact ⟨[], by simp, by simpa using e'.symm⟩
    | cons c more' =>
      obtain rfl : mark = c := (List.cons.inj e').1
      exact absurd (List.mem_append_right _ List.mem_cons_self) hmark
  · exact ⟨behind, e', rfl⟩

/-- What follows a mark does not matter for the keywords in front of it. -/
theorem hasKeyword_of_mark {word : String} {front more more' : List Char} {mark : Char}
    (hmark : mark ∉ word.toList) :
    hasKeyword word (front ++ mark :: more) = hasKeyword word (front ++ mark :: more') := by
  have imp {more more' : List Char} (h : hasKeyword word (front ++ mark :: more) = true) :
      hasKeyword word (front ++ mark :: more') = true := by
    obtain ⟨rest, e, stop⟩ := hasKeyword_iff.1 h
    obtain ⟨behind, rfl, rfl⟩ := exists_append_of_mark hmark e
    refine hasKeyword_iff.2 ⟨behind ++ mark :: more', by rw [List.append_assoc], ?_⟩
    cases behind <;> exact stop
  exact Bool.eq_iff_iff.2 ⟨imp, imp⟩

/-- A mark that no word goes on with ends a keyword as the end of the text does. -/
theorem hasKeyword_append_mark {word : String} {front more : List Char} {mark : Char} (hmark : mark ∉ word.toList)
    (stop : isWordChar mark = false) : hasKeyword word (front ++ mark :: more) = hasKeyword word front := by
  refine Bool.eq_iff_iff.2 ⟨fun h => ?_, fun h => ?_⟩
  · obtain ⟨rest, e, hrest⟩ := hasKeyword_iff.1 h
    obtain ⟨behind, rfl, rfl⟩ := exists_append_of_mark hmark e
    refine hasKeyword_iff.2 ⟨behind, rfl, fun c hc => hrest c ?_⟩
    rw [List.head?_append, Option.mem_def.1 hc]
    rfl
  · obtain ⟨rest, rfl, hrest⟩ := hasKeyword_iff.1 h
    refine hasKeyword_iff.2 ⟨rest ++ mark :: more, List.append_assoc .., fun c hc => ?_⟩
    cases rest with
    | nil =>
      obtain rfl : mark = c := Option.some.inj hc
      exact stop
    | cons d rest => exact hrest c hc

/-- The keyword that a text begins with is the word at its start. -/
theorem eq_of_hasKeyword {word keyword : String} {rest : List Char} (hword : ∀ c ∈ word.toList, isWordChar c = true)
    (hkeyword : ∀ c ∈ keyword.toList, isWordChar c = true) (hstop : ∀ c ∈ rest.head?, isWordChar c = false)
    (h : hasKeyword keyword (word.toList ++ rest) = true) : keyword = word := by
  obtain ⟨rest', e, stop⟩ := hasKeyword_iff.1 h
  have := congrArg (List.takeWhile isWordChar) e
  rw [takeWhile_word hword hstop, takeWhile_word hkeyword stop] at this
  exact String.toList_inj.1 this.symm

section

variable {table : List (String × Rule)} {depth : Nat} {rules : List Rule} {cur next : Cursor} {a : Fragment}
  {text : List Char}

theorem misses_keyword {word : String} (h : hasKeyword word text = false) :
    (keyword word).Misses table depth text := by
  intro offset
  rw [Option.eq_none_iff_forall_ne_some]
  rintro ⟨next, a⟩ hm
  obtain ⟨found, rfl : found = _, hs, hstop⟩ := keyword_spells hm
  rw [hasKeyword_iff.2 ⟨next.rest, hs.rest, hstop⟩] at h
  cases h

/-- Of several keywords the one at the start of a text is taken. -/
theorem takes_keywords {words : List String} {word : String} (hword : word ∈ words)
    (hwords : ∀ w ∈ words, ∀ c ∈ w.toList, isWordChar c = true)
    (hstop : ∀ c ∈ text.head?, isWordChar c = false) :
    (Rule.choice (words.map keyword)).Takes table depth word.toList text fun _ => .fields [] := by
  induction words with
  | nil => cases hword
  | cons w words ih =>
    by_cases same : w = word
    · subst same
      exact (takes_keyword w hstop).choice
    · have other : (keyword w).Misses table depth (word.toList ++ text) := by
        refine misses_keyword (Bool.eq_false_iff.2 fun h => same ?_)
        exact eq_of_hasKeyword (hwords word hword) (hwords w List.mem_cons_self) hstop h
      refine other.choice (ih ?_ fun w' h => hwords w' (List.mem_cons_of_mem _ h))
      exact (List.mem_cons.1 hword).resolve_left fun e => same e.symm

/-- A sequence misses a text if behind each match of its first rule the rest of it misses. -/
theorem misses_of_first {r : Rule}
    (h : ∀ offset next a, r.outcome table depth ⟨offset, text⟩ = some (next, a) →
      (Rule.sequence rules).Misses table depth next.rest) :
    (Rule.sequence (r :: rules)).Misses table depth text := by
  intro offset
  rw [outcome_sequence_cons]
  cases hm : r.outcome table depth ⟨offset, text⟩ with
  | none => rfl
  | some found =>
    obtain ⟨⟨offset', rest⟩, a⟩ := found
    exact Option.map_eq_none_iff.2 (h offset ⟨offset', rest⟩ a hm offset')

/-- A sequence that starts with a keyword, be it in any case of letters. -/
theorem misses_headed {word : String} {anyCase : Bool}
    (h : ∀ found rest, Spells word anyCase found → text = found ++ rest →
      (Rule.sequence rules).Misses table depth rest) :
    (Rule.sequence (.sequence [.literal word anyCase, .notAhead wordChar] :: rules)).Misses table depth text := by
  refine misses_of_first fun offset next a hm => ?_
  obtain ⟨found, hf, hs, -⟩ := keyword_spells hm
  exact h found next.rest hf hs.rest

/-- A capture of one of several keywords. -/
theorem keywords_span {field : String} {words : List String}
    (h : (Rule.capture field (.choice (words.map keyword))).outcome table depth cur = some (next, a)) :
    ∃ word ∈ words, cur.Spans word.toList next := by
  rw [outcome_capture] at h
  obtain ⟨⟨next', b⟩, hchoice, e⟩ := Option.map_eq_some_iff.1 h
  obtain rfl : next' = next := (Prod.mk.inj e).1
  obtain ⟨r, hr, hm⟩ := choice_eq_some hchoice
  obtain ⟨word, hword, rfl⟩ := List.mem_map.1 hr
  obtain ⟨found, rfl : found = _, hs, -⟩ := keyword_spells hm
  exact ⟨word, hword, hs⟩

theorem misses_ws1 (h : ∀ c ∈ text.head?, c ≠ ' ' ∧ c ≠ '\t') : ws1.Misses table depth text := by
  refine (misses_many1_chars fun c hc => ?_).labelled _
  have := h c hc
  simp [CharClass.contains, this]

theorem takes_blank (h : ∀ c ∈ text.head?, c ≠ ' ' ∧ c ≠ '\t') :
    ws.Takes table depth [' '] text fun _ => .items [] := takes_blanks (by simp) h

theorem ws1_spans (h : ws1.outcome table depth cur = some (next, a)) :
    ∃ blanks, blanks ≠ [] ∧ (∀ c ∈ blanks, c = ' ' ∨ c = '\t') ∧ cur.Spans blanks next := by
  rw [ws1, outcome_labelled, oneOf, outcome_many1_chars, Option.ite_none_right_eq_some] at h
  obtain ⟨hfirst, h⟩ := h
  obtain ⟨rfl, -⟩ := Prod.mk.inj (Option.some.inj h)
  refine ⟨_, ?_, fun c hc => ?_, cur.spans_past _⟩
  · obtain ⟨c, hc, hset⟩ := (Option.any_eq_true ..).1 hfirst
    obtain ⟨rest, e⟩ := List.head?_eq_some_iff.1 hc
    simpa [e, List.takeWhile_cons] using hset
  · simpa [CharClass.contains] using List.all_eq_true.1 List.all_takeWhile c hc

theorem misses_quotedString (h : ∀ c ∈ text.head?, c ≠ '"') : quotedString.Misses table depth text := by
  have mark : (lit "\"").Misses table depth text := by
    refine misses_lit ?_
    rintro ⟨more, rfl⟩
    exact h '"' rfl rfl
  exact mark.sequence.labelled "quoted string"

/-- The rest of the last line, up to which nothing ends. -/
theorem takes_restOfLine (h : ∀ c ∈ text, c ≠ '\r' ∧ c ≠ '\n') :
    restOfLine.Takes table depth text [] fun _ => .items [] :=
  takes_textUntil (by simpa using h) nofun

/-- The blanks that a text starts with. -/
theorem exists_blanks (text : List Char) : ∃ gap more, text = gap ++ more ∧
    ws.Takes table depth gap more fun _ => .items [] := by
  have hgap : ∀ c ∈ text.takeWhile [' ', '\t'].contains, [' ', '\t'].contains c = true :=
    fun c hc => List.all_eq_true.1 List.all_takeWhile c hc
  have hmore : ∀ c ∈ (text.dropWhile [' ', '\t'].contains).head?, [' ', '\t'].contains c = false := by
    intro c hc
    have := List.head?_dropWhile_not [' ', '\t'].contains text
    rw [hc] at this
    simpa using this
  exact ⟨_, _, List.takeWhile_append_dropWhile.symm, Rule.Takes.quiet (takes_many_chars hgap hmore)⟩

/-- A title takes the rest of its line, whatever that is. -/
theorem takes_title (field : String) (stop : ∀ c ∈ text.head?, isWordChar c = false)
    (h : ∀ c ∈ text, c ≠ '\r' ∧ c ≠ '\n') :
    ∃ node : Nat → Node, (title field).Takes table depth ("title".toList ++ text) [] fun offset =>
      .fields [(field, node offset)] := by
  obtain ⟨gap, more, rfl, blanks⟩ := @exists_blanks table depth text
  have caption : restOfLine.Takes table depth more [] fun _ => .items [] :=
    takes_restOfLine fun c hc => h c (List.mem_append_right _ hc)
  rw [← List.append_nil more] at blanks
  have word : (keyword "title").Takes table depth "title".toList (gap ++ more ++ []) fun _ => .fields [] :=
    takes_keyword "title" (by rwa [List.append_nil])
  exact ⟨_, word.skip rfl (blanks.skip rfl (caption.capture field).last)⟩

/-- The end of a line is a line end or the end of the input, and blanks and a comment may stand before it. -/
theorem eol_parts (h : eol.outcome table depth cur = some (next, a)) :
    ∃ blanks comment ending, cur.Spans (blanks ++ comment ++ ending) next ∧ (∀ c ∈ blanks, c = ' ' ∨ c = '\t') ∧
      (comment = [] ∨ ∃ text, comment = '%' :: '%' :: text ∧ ∀ c ∈ text, c ≠ '\r' ∧ c ≠ '\n') ∧
      ((ending = ['\n'] ∨ ending = ['\r', '\n']) ∨ ending = [] ∧ next.rest = []) := by
  obtain ⟨first, _, _, hws, h, -⟩ := sequence_cons_eq_some.1 h
  obtain ⟨_, hend, -⟩ := sequence_singleton_eq_some.1 h
  rw [outcome_labelled] at hend
  obtain ⟨second, _, _, hcomment, hend, -⟩ := sequence_cons_eq_some.1 hend
  obtain ⟨_, hstop, -⟩ := sequence_singleton_eq_some.1 hend
  obtain ⟨blanks, hblanks, hs⟩ := ws_spans hws
  obtain ⟨text, htext, hs'⟩ := optional_comment_spans hcomment
  obtain ⟨r, hr, hm⟩ := choice_eq_some hstop
  simp only [List.mem_cons, List.not_mem_nil, or_false] at hr
  obtain rfl | rfl := hr
  · obtain ⟨ending, hending, hs''⟩ := newline_spans hm
    exact ⟨blanks, text, ending, (hs.trans hs').trans hs'', hblanks, htext, .inl hending⟩
  · obtain ⟨rfl, -, hrest⟩ := endOfInput_rest hm
    exact ⟨blanks, text, [], by rw [List.append_nil]; exact hs.trans hs', hblanks, htext, .inr ⟨rfl, hrest⟩⟩

theorem eol_ends (h : eol.outcome table depth cur = some (next, a)) :
    ∃ trail ending, cur.Spans (trail ++ ending) next ∧ (∀ c ∈ trail, c ≠ '\r' ∧ c ≠ '\n') ∧
      ((ending = ['\n'] ∨ ending = ['\r', '\n']) ∨ ending = [] ∧ next.rest = []) := by
  obtain ⟨blanks, comment, ending, hs, hblanks, hcomment, ends⟩ := eol_parts h
  exact ⟨blanks ++ comment, ending, hs, lineEnd_not_mem hblanks hcomment, ends⟩

/-- A line ends with a line feed or with the input. -/
theorem eol_spans (h : eol.outcome table depth cur = some (next, a)) :
    ∃ text, cur.Spans text next ∧ (text.getLast? = some '\n' ∨ next.rest = []) := by
  obtain ⟨trail, ending, hs, -, ends⟩ := eol_ends h
  refine ⟨_, hs, ends.imp (fun feed => ?_) And.right⟩
  obtain rfl | rfl := feed <;> simp

/-- The end of a line without a line feed is the end of the input. -/
theorem rest_eq_nil_of_eol (h : eol.outcome table depth cur = some (next, a)) (hlast : '\n' ∉ cur.rest) :
    next.rest = [] := by
  obtain ⟨text, hs, ends⟩ := eol_spans h
  exact ends.resolve_left fun hfeed =>
    hlast (hs.rest ▸ List.mem_append_left _ (List.mem_of_getLast? hfeed))

theorem Cursor.Reaches.not_mem (h : cur.Reaches next) {c : Char} (hc : c ∉ cur.rest) : c ∉ next.rest := by
  obtain ⟨text, hs⟩ := h
  exact fun hmem => hc (hs.rest ▸ List.mem_append_right _ hmem)

theorem Cursor.Reaches.rest_eq_nil (h : cur.Reaches next) (hrest : cur.rest = []) : next.rest = [] := by
  obtain ⟨text, hs⟩ := h
  exact (List.append_eq_nil_iff.1 (hs.rest.symm.trans hrest)).2

/-- The trees of an accepted document are what the rounds behind its header leave. -/
theorem exists_rounds_of_parse {g : Grammar} {header round : Rule} {field input : String} {t : Tree}
    (hroot : g.root = document header (.capture field (many round))) (quiet : header.capturesNone = true)
    (accepted : g.parse depth input = .ok t) :
    ∃ first next front, (Rule.sequence [preamble, ws, header, eol]).outcome g.rules depth
        (.start input) = some (first, front) ∧ front.toFields = [] ∧
      (many round).outcome g.rules depth first = some (next, .items (t.list field)) ∧
      next.rest = [] := by
  obtain ⟨last, whole, hm, -, rfl⟩ := parse_eq_ok.1 accepted
  rw [hroot] at hm
  obtain ⟨first, front, body, hfront, hbody, hwhole⟩ :=
    @sequence_append_eq_some _ _ [preamble, ws, header, eol] _ _ _ _ hm
  obtain ⟨next, captured, ending, hcaptured, hend, rfl⟩ := sequence_cons_eq_some.1 hbody
  rw [outcome_capture] at hcaptured
  obtain ⟨⟨next', fragment⟩, hrounds, hc⟩ := Option.map_eq_some_iff.1 hcaptured
  obtain ⟨rfl, rfl⟩ := Prod.mk.inj hc
  obtain ⟨trees, rfl⟩ := repeated_items hrounds
  obtain ⟨_, _, _, hstop, -, -⟩ := sequence_cons_eq_some.1 hend
  have noFields : front.toFields = [] := by
    refine toFields_of_capturesNone ?_ _ _ _ hfront
    simp only [Rule.capturesNone, Rule.capturesNoneAll, quiet]
    rfl
  have fields : whole.toFields = [(field, (Fragment.items trees).toNode (first.spanTo next'))] := by
    rw [hwhole, noFields, Fragment.append, Fragment.toFields, toFields_of_capturesNone rfl _ _ _ hend]
    rfl
  refine ⟨first, next', front, hfront, noFields, ?_, (endOfInput_rest hstop).2.2⟩
  rw [Fragment.toTree, fields, list_toNode]
  exact hrounds

/-- Each tree of an accepted document is what one of the rounds behind its header leaves. -/
theorem exists_round_of_mem {g : Grammar} {header round : Rule} {field input : String} {t tree : Tree}
    (hroot : g.root = document header (.capture field (many round))) (quiet : header.capturesNone = true)
    (accepted : g.parse depth input = .ok t) (mem : tree ∈ t.list field) :
    ∃ cur next a, round.outcome g.rules depth cur = some (next, a) ∧
      tree ∈ a.round (cur.spanTo next) := by
  obtain ⟨first, last, -, -, -, hrounds, -⟩ := exists_rounds_of_parse hroot quiet accepted
  obtain ⟨trees, e, all⟩ := repeated_ind
    (motive := fun _ _ trees => ∀ tree ∈ trees, ∃ cur next a,
      round.outcome g.rules depth cur = some (next, a) ∧ tree ∈ a.round (cur.spanTo next))
    (fun _ => nofun) (fun cur a hs tree mem => ⟨cur, cur, a, hs, mem⟩)
    (fun cur mid next a trees hs _ ih tree mem => by
      obtain mem | mem := List.mem_append.1 mem
      · exact ⟨cur, mid, a, hs, mem⟩
      · exact ih tree mem) hrounds
  exact all tree (Fragment.items.inj e ▸ mem)

/-- A document is not parsed if the line behind its header is neither blank nor one of its statements. -/
theorem not_parsed_of_misses {g : Grammar} {header round : Rule} {field : String}
    (hroot : g.root = document header (.capture field (many round))) {head : List Char} (inked : Inked head)
    {leaves : Nat → Fragment}
    (hheader : header.Takes g.rules depth head (['\n'] ++ text) leaves)
    (hround : round.Misses g.rules depth text) (hne : text ≠ []) (tree : Tree) :
    g.parse depth (String.ofList (head ++ (['\n'] ++ text))) ≠ .ok tree := by
  have stop : endOfInput.Misses g.rules depth text := by
    intro offset
    rw [Option.eq_none_iff_forall_ne_some]
    rintro ⟨next, a⟩ hm
    exact hne (endOfInput_rest hm).2.2
  have body : (Rule.sequence [.capture field (many round), endOfInput]).Misses g.rules depth text :=
    (hround.many.capture field).nil_misses stop.sequence
  have fromHeader := hheader.misses ((takes_eol (.inl rfl)).misses body)
  have start : Inked (head ++ (['\n'] ++ text)) := inked.append _
  have whole : g.root.Misses g.rules depth (head ++ (['\n'] ++ text)) := by
    rw [hroot]
    exact start.misses_blankLine.many.nil_misses (start.takes_ws.nil_misses fromHeader)
  intro hparse
  obtain ⟨next, a, hm, -⟩ := parse_eq_ok.1 hparse
  rw [Cursor.start, String.toList_ofList, whole] at hm
  cases hm

end

end DiagramText.Peg
