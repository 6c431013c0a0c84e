import DiagramText.Proofs.Peg.Replace
import DiagramText.Requirement

/-!
# How statements of requirement diagrams open

A text opens with the characters of a name, and behind them and blanks with a mark (`opening`). Each form of
statement is known by the words and the marks that it opens with (`Opens`), but for a direction and a relation:
`direction -` may open either. So where one form matches, the forms in front of it do not, and how a statement
matches does not depend on what follows its line (`keeps_statement`).
-/

namespace DiagramText.Requirement

open Peg

/-! ## Openings -/

/-- The characters of a name that a text starts with, and the first one behind them and blanks. -/
def opening (text : List Char) : List Char × Option Char :=
  (text.takeWhile isNameChar, ((text.dropWhile isNameChar).dropWhile [' ', '\t'].contains).head?)

/-- A quote or a character of a name starts a name. -/
def isNameStart (c : Char) : Bool := c == '"' || isNameChar c

/-- Whether the rule only matches texts that open with one of the words and one of the marks. -/
def Opens (table : List (String × Rule)) (depth : Nat) (words : List String) (marks : Char → Bool)
    (r : Rule) : Prop :=
  ∀ cur found, r.outcome table depth cur = some found →
    ∃ word ∈ words, ∃ c, opening cur.rest = (word.toList, some c) ∧ marks c = true

section

variable {table : List (String × Rule)} {depth : Nat} {front blanks rest text : List Char} {cur next : Cursor}
  {a : Fragment} {found : Cursor × Fragment}

theorem opening_append {c : Char} (hfront : ∀ c ∈ front, isNameChar c = true)
    (hblanks : ∀ c ∈ blanks, c = ' ' ∨ c = '\t') (hc : c ≠ ' ' ∧ c ≠ '\t')
    (hstop : blanks ≠ [] ∨ isNameChar c = false) :
    opening (front ++ (blanks ++ c :: rest)) = (front, some c) := by
  have stop : ∀ d ∈ (blanks ++ c :: rest).head?, isNameChar d = false := by
    cases blanks with
    | nil =>
      rintro d ⟨⟩
      exact hstop.resolve_left (absurd rfl)
    | cons b blanks =>
      rintro d ⟨⟩
      obtain rfl | rfl := hblanks b List.mem_cons_self <;> decide
  have tail : (front ++ (blanks ++ c :: rest)).dropWhile isNameChar = blanks ++ c :: rest :=
    congrArg Cursor.rest (Cursor.past_append hfront stop 0)
  have head : (front ++ (blanks ++ c :: rest)).takeWhile isNameChar = front := by
    have whole := List.takeWhile_append_dropWhile (p := isNameChar) (l := front ++ (blanks ++ c :: rest))
    rw [tail] at whole
    exact List.append_cancel_right whole
  have mark : (blanks ++ c :: rest).dropWhile [' ', '\t'].contains = c :: rest :=
    congrArg Cursor.rest (Cursor.past_append (by simpa using hblanks) (by simpa using hc) 0)
  rw [opening, head, tail, mark]
  rfl

/-- A statement that starts with one of several words goes on behind it and blanks. -/
theorem opens_of_first {head gap first : Rule} {rules : List Rule} {words : List String} {marks : Char → Bool}
    (hwords : ∀ word ∈ words, ∀ c ∈ word.toList, isNameChar c = true)
    (hhead : ∀ cur next a, head.outcome table depth cur = some (next, a) →
      ∃ word ∈ words, cur.Spans word.toList next)
    (hgap : gap = ws1 ∨ gap = ws ∧ ∀ c, marks c = true → isNameChar c = false)
    (hmarks : marks ' ' = false ∧ marks '\t' = false)
    (hfirst : ∀ text, (∀ c ∈ text.head?, marks c = false) → first.Misses table depth text) :
    Opens table depth words marks (.sequence (head :: gap :: first :: rules)) := by
  rintro cur ⟨next, a⟩ hm
  obtain ⟨behind, _, _, hword, hm, -⟩ := sequence_cons_eq_some.1 hm
  obtain ⟨start, _, _, hblanks, hm, -⟩ := sequence_cons_eq_some.1 hm
  obtain ⟨_, _, _, hm, -⟩ := sequence_cons_eq_some.1 hm
  obtain ⟨word, hmem, hs⟩ := hhead _ _ _ hword
  obtain ⟨c, hc, hmark⟩ : ∃ c ∈ start.rest.head?, marks c = true := by
    by_contra none
    have := hfirst start.rest (by simpa using none) start.offset
    rw [hm] at this
    cases this
  obtain ⟨rest, hrest⟩ := List.head?_eq_some_iff.1 hc
  obtain ⟨blanks, hblank, hs', hstop⟩ : ∃ blanks, (∀ c ∈ blanks, c = ' ' ∨ c = '\t') ∧
      behind.Spans blanks start ∧ (blanks ≠ [] ∨ isNameChar c = false) := by
    obtain rfl | ⟨rfl, hstop⟩ := hgap
    · obtain ⟨blanks, hne, hblank, hs'⟩ := ws1_spans hblanks
      exact ⟨blanks, hblank, hs', .inl hne⟩
    · obtain ⟨blanks, hblank, hs'⟩ := ws_spans hblanks
      exact ⟨blanks, hblank, hs', .inr (hstop c hmark)⟩
  refine ⟨word, hmem, c, ?_, hmark⟩
  rw [hs.rest, hs'.rest, hrest]
  refine opening_append (hwords word hmem) hblank ⟨?_, ?_⟩ hstop <;> rintro rfl
  · exact absurd hmark (by simp [hmarks.1])
  · exact absurd hmark (by simp [hmarks.2])

theorem inked_of_head {c : Char} (hc : c ∈ text.head?) (start : isNameStart c = true) : Inked text := by
  have others : ∀ mark ∈ [' ', '\t', '\r', '\n', '%'], isNameStart mark = false := by
    simp [isNameStart, isNameChar, isAlphanumeric]
  refine ⟨c, hc, fun hmem => ?_⟩
  rw [others c hmem] at start
  cases start

theorem misses_name (h : ∀ c ∈ text.head?, isNameStart c = false) : nameRule.Misses table depth text := by
  have quoted : quotedString.Misses table depth text := misses_quotedString fun c hc e => by
    have := h c hc
    simp [isNameStart, e] at this
  have plain : (many1 (.chars (.satisfying isNameChar "name character"))).Misses table depth text :=
    misses_many1_chars fun c hc => (Bool.or_eq_false_iff.1 (h c hc)).2
  exact (quoted.or (plain.or misses_choice_nil)).labelled "name"

theorem plainName_spans (h : (Rule.choice [many1 (.chars (.satisfying isNameChar "name character"))]).outcome
    table depth cur = some (next, a)) :
    ∃ name, (∀ c ∈ name, isNameChar c = true) ∧ name ≠ [] ∧ cur.Spans name next := by
  rw [outcome_choice_cons, outcome_choice_nil, Option.or_none, outcome_many1_chars,
    Option.ite_none_right_eq_some] at h
  obtain ⟨hfirst, h⟩ := h
  obtain ⟨rfl, -⟩ := Prod.mk.inj (Option.some.inj h)
  refine ⟨_, fun c hc => List.all_eq_true.1 List.all_takeWhile c hc, ?_, cur.spans_past _⟩
  obtain ⟨c, hc, hset⟩ := (Option.any_eq_true ..).1 hfirst
  obtain ⟨rest, e⟩ := List.head?_eq_some_iff.1 hc
  have plain : isNameChar c = true := hset
  simpa [e, List.takeWhile_cons, CharClass.contains] using plain

/-- A name is quoted or made of its characters. -/
theorem name_spans (h : nameRule.outcome table depth cur = some (next, a)) :
    (∃ rest, cur.rest = '"' :: rest) ∨
      ∃ name, (∀ c ∈ name, isNameChar c = true) ∧ name ≠ [] ∧ cur.Spans name next := by
  rw [nameRule, outcome_labelled, outcome_choice_cons, Option.or_eq_some_iff] at h
  obtain hquoted | ⟨-, h⟩ := h
  · left
    by_contra none
    have := @misses_quotedString table depth cur.rest (fun c hc e => by
      obtain ⟨rest, hrest⟩ := List.head?_eq_some_iff.1 hc
      exact none ⟨rest, e ▸ hrest⟩) cur.offset
    rw [hquoted] at this
    cases this
  · exact .inr (plainName_spans h)

/-- A relation opens with a name and an arrow, if the name is not quoted. -/
theorem opening_relation {field text : String} {rules : List Rule} {mark : Char} {more : List Char}
    (htext : text.toList = mark :: more) (hmark : mark ≠ ' ' ∧ mark ≠ '\t') (hplain : isNameChar mark = false)
    (h : (Rule.sequence (.capture field nameRule :: ws :: lit text :: rules)).outcome table depth cur =
      some found) :
    ∃ name, opening cur.rest = (name, some mark) ∨ opening cur.rest = ([], some '"') := by
  obtain ⟨next, a⟩ := found
  obtain ⟨behind, _, _, hname, h, -⟩ := sequence_cons_eq_some.1 h
  obtain ⟨start, _, _, hblanks, h, -⟩ := sequence_cons_eq_some.1 h
  obtain ⟨_, _, _, hlit, -⟩ := sequence_cons_eq_some.1 h
  rw [outcome_capture] at hname
  obtain ⟨⟨behind', b⟩, taken, e⟩ := Option.map_eq_some_iff.1 hname
  obtain ⟨rfl, -⟩ := Prod.mk.inj e
  obtain ⟨rest, hrest⟩ | ⟨name, hplainName, -, hs⟩ := name_spans taken
  · refine ⟨[], .inr ?_⟩
    rw [hrest]
    exact @opening_append [] [] rest '"' nofun nofun (by decide) (.inr (by decide))
  · obtain ⟨blanks, hblank, hs'⟩ := ws_spans hblanks
    refine ⟨name, .inl ?_⟩
    rw [hs.rest, hs'.rest, (lit_spans hlit).rest, htext]
    exact opening_append hplainName hblank hmark (.inr hplain)

/-! ## The forms of statements -/

/-- The keywords of requirements, longer ones first. -/
def topicWords : List String :=
  ["functionalRequirement", "interfaceRequirement", "performanceRequirement", "physicalRequirement",
    "designConstraint", "requirement"]

/-- The declaration of a requirement. -/
def requirementRule : Rule :=
  .capture "requirement" (blockRule (.capture "kind" (.choice (topicWords.map keyword)))
    ["id", "text", "risk", "verifymethod"])

/-- The declaration of an element. -/
def elementRule : Rule := .capture "element" (blockRule (keyword "element") ["type", "docref"])

/-- The line that sets the direction. -/
def directionRule : Rule := .sequence [keyword "direction", ws1, .capture "direction" word]

theorem statementRule_eq : statementRule = .labelled "statement" (.choice [requirementRule, elementRule,
    directionRule, accessibility "acc_title" "acc_descr", relationshipRule]) := rfl

theorem Opens.capture {words : List String} {marks : Char → Bool} {r : Rule} (h : Opens table depth words marks r)
    (field : String) : Opens table depth words marks (.capture field r) := by
  intro cur found hm
  rw [outcome_capture] at hm
  obtain ⟨found, hr, -⟩ := Option.map_eq_some_iff.1 hm
  exact h cur found hr

theorem opens_block {head : Rule} {words : List String} (keys : List String)
    (hwords : ∀ word ∈ words, ∀ c ∈ word.toList, isNameChar c = true)
    (hhead : ∀ cur next a, head.outcome table depth cur = some (next, a) →
      ∃ word ∈ words, cur.Spans word.toList next) :
    Opens table depth words isNameStart (blockRule head keys) :=
  opens_of_first hwords hhead (.inl rfl) (by decide) fun _ h => (misses_name h).capture "name"

theorem spans_keyword {word : String} (cur next : Cursor) (a : Fragment)
    (h : (keyword word).outcome table depth cur = some (next, a)) : ∃ w ∈ [word], cur.Spans w.toList next := by
  obtain ⟨found, rfl : found = _, hs, -⟩ := keyword_spells h
  exact ⟨word, List.mem_singleton.2 rfl, hs⟩

theorem opens_requirement : Opens table depth topicWords isNameStart requirementRule :=
  (opens_block _ (by simp [topicWords, isNameChar, isAlphanumeric]) fun _ _ _ => keywords_span).capture _

theorem opens_element : Opens table depth ["element"] isNameStart elementRule :=
  (opens_block _ (by simp [isNameChar, isAlphanumeric]) spans_keyword).capture _

theorem opens_direction : Opens table depth ["direction"] isWordChar directionRule :=
  opens_of_first (by simp [isNameChar, isAlphanumeric]) spans_keyword (.inl rfl) (by decide) fun _ h =>
    Rule.Misses.capture (Rule.Misses.labelled (misses_many1_chars h) "word") "direction"

/-- What a caption goes on with behind its keyword. -/
def isCaptionMark (c : Char) : Bool := c == ':' || c == '\x7b'

theorem misses_lit_mark {word : String} {mark : Char} (hword : word.toList = [mark])
    (h : ∀ c ∈ text.head?, c ≠ mark) : (lit word).Misses table depth text := by
  refine misses_lit ?_
  rw [hword]
  rintro ⟨rest, rfl⟩
  exact h mark rfl rfl

theorem opens_accessibility :
    Opens table depth ["accTitle", "accDescr"] isCaptionMark (accessibility "acc_title" "acc_descr") := by
  have apart : ∀ c, isCaptionMark c = true → isNameChar c = false := by
    intro c hc
    simp only [isCaptionMark, Bool.or_eq_true, beq_iff_eq] at hc
    obtain rfl | rfl := hc <;> decide
  have marks (text : List Char) (h : ∀ c ∈ text.head?, isCaptionMark c = false) :
      (lit ":").Misses table depth text ∧ (lit "\x7b").Misses table depth text := by
    constructor
    · exact misses_lit_mark (show _ = [':'] from rfl) fun c hc e => by simpa [isCaptionMark, e] using h c hc
    · exact misses_lit_mark (show _ = ['\x7b'] from rfl) fun c hc e => by simpa [isCaptionMark, e] using h c hc
  rintro cur ⟨next, a⟩ hm
  obtain ⟨r, hr, hm⟩ := choice_eq_some hm
  simp only [List.mem_cons, List.not_mem_nil, or_false] at hr
  obtain rfl | rfl := hr
  · obtain ⟨word, hword, opened⟩ := @opens_of_first table depth _ _ _ _ ["accTitle"] isCaptionMark
      (by simp [isNameChar, isAlphanumeric]) spans_keyword (.inr ⟨rfl, apart⟩) (by decide)
      (fun text h => (marks text h).1) _ _ hm
    exact ⟨word, List.mem_append_left ["accDescr"] hword, opened⟩
  · obtain ⟨word, hword, opened⟩ := @opens_of_first table depth _ _ _ _ ["accDescr"] isCaptionMark
      (by simp [isNameChar, isAlphanumeric]) spans_keyword (.inr ⟨rfl, apart⟩) (by decide)
      (fun text h => (marks text h).2.sequence.or ((marks text h).1.sequence.or misses_choice_nil)) _ _ hm
    exact ⟨word, List.mem_cons_of_mem _ hword, opened⟩

/-- A relation opens with an arrow behind a name, or with a quote. -/
theorem opening_relationship (h : relationshipRule.outcome table depth cur = some found) :
    ∃ name, opening cur.rest = (name, some '-') ∨ opening cur.rest = (name, some '<') ∨
      opening cur.rest = ([], some '"') := by
  rw [relationshipRule, outcome_capture] at h
  obtain ⟨⟨next, a⟩, hm, -⟩ := Option.map_eq_some_iff.1 h
  obtain ⟨r, hr, hm⟩ := choice_eq_some hm
  simp only [List.mem_cons, List.not_mem_nil, or_false] at hr
  obtain rfl | rfl := hr
  · obtain ⟨name, opened | opened⟩ := @opening_relation _ _ _ _ "source" "-" _ '-' _ rfl (by decide)
      (by decide) hm
    · exact ⟨name, .inl opened⟩
    · exact ⟨name, .inr (.inr opened)⟩
  · obtain ⟨name, opened | opened⟩ := @opening_relation _ _ _ _ "target" "<-" _ '<' _ rfl (by decide)
      (by decide) hm
    · exact ⟨name, .inr (.inl opened)⟩
    · exact ⟨name, .inr (.inr opened)⟩

/-! ## Forms that do not overlap -/

/-- What opens with other words does not match. -/
theorem Opens.apart {r r' : Rule} {words words' : List String} {marks marks' : Char → Bool}
    (h : Opens table depth words marks r) (h' : Opens table depth words' marks' r')
    (hwords : ∀ word ∈ words, word ∉ words') (hm : r'.outcome table depth cur = some found) :
    r.outcome table depth cur = none := by
  rw [Option.eq_none_iff_forall_ne_some]
  intro found' hm'
  obtain ⟨word, hword, c, opened, -⟩ := h cur found' hm'
  obtain ⟨word', hword', c', opened', -⟩ := h' cur found hm
  obtain rfl : word = word' := String.toList_inj.1 (Prod.mk.inj (opened.symm.trans opened')).1
  exact hwords word hword hword'

/-- What opens with a word and no arrow does not match where a relation does. -/
theorem Opens.apart_relationship {r : Rule} {words : List String} {marks : Char → Bool}
    (h : Opens table depth words marks r) (hwords : ∀ word ∈ words, word ≠ "")
    (hmarks : marks '-' = false ∧ marks '<' = false)
    (hm : relationshipRule.outcome table depth cur = some found) : r.outcome table depth cur = none := by
  rw [Option.eq_none_iff_forall_ne_some]
  intro found' hm'
  obtain ⟨word, hword, c, opened, hmark⟩ := h cur found' hm'
  obtain ⟨name, opened' | opened' | opened'⟩ := opening_relationship hm
  all_goals obtain ⟨front, mark⟩ := Prod.mk.inj (opened.symm.trans opened')
  · obtain rfl : c = '-' := Option.some.inj mark
    simp [hmarks] at hmark
  · obtain rfl : c = '<' := Option.some.inj mark
    simp [hmarks] at hmark
  · exact hwords word hword (String.toList_inj.1 front)

/-! ## Statements keep to their text -/

theorem keeps_block {head : Rule} {keys : List String} (hhead : head.isLineWise = true)
    (hkeys : (statementRound (propertyRule keys)).isLineWise = true) : (blockRule head keys).Keeps table depth := by
  refine keeps_sequence fun r hr => ?_
  simp only [List.mem_cons, List.not_mem_nil, or_false] at hr
  obtain rfl | rfl | rfl | rfl | rfl | rfl | rfl | rfl | rfl := hr
  · exact keeps_of_isLineWise hhead
  all_goals first | exact keeps_of_isLineWise rfl | exact keeps_capture (keeps_many hkeys) "body"

/-- A description in braces may run over several lines, but it ends before what follows them. -/
theorem keeps_accessibility : (accessibility "acc_title" "acc_descr").Keeps table depth := by
  have braces : (Rule.sequence [lit "\x7b", .capture "acc_descr" (textUntil "\x7d"), lit "\x7d"]).Keeps
      table depth := by
    refine keeps_sequence fun r hr => ?_
    simp only [List.mem_cons, List.not_mem_nil, or_false] at hr
    obtain rfl | rfl | rfl := hr
    · exact keeps_of_isLineWise rfl
    · exact keeps_capture (keeps_quiet (keeps_many rfl)) "acc_descr"
    · exact keeps_of_isLineWise rfl
  have description : (Rule.choice
      [.sequence [lit "\x7b", .capture "acc_descr" (textUntil "\x7d"), lit "\x7d"],
        .sequence [lit ":", ws, .capture "acc_descr" restOfLine]]).Keeps table depth := by
    refine keeps_choice_of_apart braces (keeps_of_isLineWise rfl) ?_
    rintro r hr ⟨offset, text⟩ ⟨next, a⟩ hm
    obtain rfl := List.mem_singleton.1 hr
    obtain ⟨_, _, _, hcolon, -⟩ := sequence_cons_eq_some.1 hm
    have colon : text = ":".toList ++ _ := (lit_spans hcolon).rest
    have noBrace : (lit "\x7b").Misses table depth text := misses_lit_mark rfl fun c hc => by
      obtain rfl : c = ':' := by
        rw [colon] at hc
        exact (Option.some.inj hc).symm
      decide
    exact noBrace.sequence offset
  have line : (Rule.sequence [keyword "accDescr", ws, .choice
      [.sequence [lit "\x7b", .capture "acc_descr" (textUntil "\x7d"), lit "\x7d"],
        .sequence [lit ":", ws, .capture "acc_descr" restOfLine]]]).Keeps table depth := by
    refine keeps_sequence fun r hr => ?_
    simp only [List.mem_cons, List.not_mem_nil, or_false] at hr
    obtain rfl | rfl | rfl := hr
    · exact keeps_of_isLineWise rfl
    · exact keeps_of_isLineWise rfl
    · exact description
  exact keeps_choice_of_isLineWise rfl (keeps_choice_of_apart line keeps_choice_nil nofun)

/-- How a statement matches does not depend on what follows its line. -/
theorem keeps_statement : statementRule.Keeps table depth := by
  have noArrow : (isNameStart '-' = false ∧ isNameStart '<' = false) ∧
      isCaptionMark '-' = false ∧ isCaptionMark '<' = false := by decide
  have fromCaption : (Rule.choice [accessibility "acc_title" "acc_descr", relationshipRule]).Keeps
      table depth := by
    refine keeps_choice_of_apart keeps_accessibility (keeps_of_isLineWise rfl) fun r hr cur found hm => ?_
    obtain rfl := List.mem_singleton.1 hr
    exact opens_accessibility.apart_relationship (by decide) noArrow.2 hm
  have fromDirection : (Rule.choice
      [directionRule, accessibility "acc_title" "acc_descr", relationshipRule]).Keeps table depth :=
    keeps_choice_of_isLineWise rfl fromCaption
  have fromElement : (Rule.choice [elementRule, directionRule, accessibility "acc_title" "acc_descr",
      relationshipRule]).Keeps table depth := by
    have element := @keeps_block table depth (keyword "element") ["type", "docref"] rfl rfl
    refine keeps_choice_of_apart (keeps_capture element "element") fromDirection fun r hr cur found hm => ?_
    simp only [List.mem_cons, List.not_mem_nil, or_false] at hr
    obtain rfl | rfl | rfl := hr
    · exact opens_element.apart opens_direction (by decide) hm
    · exact opens_element.apart opens_accessibility (by decide) hm
    · exact opens_element.apart_relationship (by decide) noArrow.1 hm
  have fromRequirement : (Rule.choice [requirementRule, elementRule, directionRule,
      accessibility "acc_title" "acc_descr", relationshipRule]).Keeps table depth := by
    have requirement := @keeps_block table depth (.capture "kind" (.choice (topicWords.map keyword)))
      ["id", "text", "risk", "verifymethod"] rfl rfl
    refine keeps_choice_of_apart (keeps_capture requirement "requirement") fromElement fun r hr cur found hm => ?_
    simp only [List.mem_cons, List.not_mem_nil, or_false] at hr
    obtain rfl | rfl | rfl | rfl := hr
    · exact opens_requirement.apart opens_element (by decide) hm
    · exact opens_requirement.apart opens_direction (by decide) hm
    · exact opens_requirement.apart opens_accessibility (by decide) hm
    · exact opens_requirement.apart_relationship (by decide) noArrow.1 hm
  rw [statementRule_eq]
  exact keeps_labelled fromRequirement "statement"

end

end DiagramText.Requirement
