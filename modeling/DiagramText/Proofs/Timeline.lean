import DiagramText.Proofs.Peg.Keywords
import DiagramText.Proofs.Peg.LastLine
import DiagramText.Timeline

/-!
# The last line of a timeline

A statement of a timeline may be any text that holds no colon, and it is then a period of that name.
This is true even of what looks like a comment, if no line feed follows it: a last line that begins as
comments do is the last period of its timeline (`last_period_of_read`).
-/

namespace DiagramText.Timeline

open Peg

/-- A line of the body: idle, or a statement. -/
def lineRule : Rule := .choice [blankLine, .sequence [ws, .ref "statement", eol]]

/-- A text that may be the name of a period. -/
def PlainName (text : List Char) : Prop := ∀ c ∈ text, c ≠ ':' ∧ c ≠ '\r' ∧ c ≠ '\n'

theorem PlainName.percent {text : List Char} (h : PlainName text) : PlainName ('%' :: '%' :: text) := by
  intro c hc
  simp only [List.mem_cons] at hc
  rcases hc with rfl | rfl | hc
  · decide
  · decide
  · exact h c hc

/-- The tree of a line that is a period without events. -/
def periodTree (text : List Char) (offset : Nat) : Tree :=
  .mk ⟨String.ofList text, offset⟩
    [("period", .tree (.mk ⟨String.ofList text, offset⟩ [("name", .token ⟨String.ofList text, offset⟩)]))]

/-- The line is read as a period. -/
theorem read_periodTree (text : List Char) (offset : Nat) :
    statements.read (periodTree text offset) = .ok (.period (trim (String.ofList text)) []) :=
  rfl

/-! ## What starts with a percent sign -/

section

variable {table : List (String × Rule)} {depth : Nat}

/-- Only a period starts with a percent sign. -/
theorem outcome_statement_percent (offset : Nat) (rest : List Char) :
    statementRule.outcome table depth ⟨offset, '%' :: rest⟩ =
      (Rule.capture "period" (.sequence
        [.capture "name" (text1Until ":\r\n" "time period"), eventsRule])).outcome table depth
          ⟨offset, '%' :: rest⟩ := by
  rw [statementRule, outcome_labelled]
  simp only [outcome_choice_cons, outcome_choice_nil, title, accessibility, keyword, lit,
    outcome_sequence_cons, outcome_capture, outcome_literal, Cursor.skip?, Bool.false_eq_true,
    ↓reduceIte, Chars.dropStart?, String.reduceToList, Char.reduceEq, Option.map_none, Option.bind_none,
    Option.none_or, Option.or_none]

theorem outcome_events_nil (offset : Nat) :
    eventsRule.outcome table depth ⟨offset, []⟩ = some (⟨offset, []⟩, .items []) := by
  refine outcome_many_of_none ?_
  rw [outcome_sequence_cons, lit, outcome_literal]
  rfl

/-- The rest of a document without a colon or a line end is one period. -/
theorem outcome_period {text : List Char} (htext : PlainName text) (hne : text ≠ []) (offset : Nat) :
    (Rule.capture "period" (.sequence
      [.capture "name" (text1Until ":\r\n" "time period"), eventsRule])).outcome table depth
        ⟨offset, text⟩ =
      some (⟨offset + Chars.byteSize text, []⟩, .fields (periodTree text offset).fields) := by
  have hall : ∀ c ∈ text, (CharClass.noneOf ":\r\n".toList).contains c = true := by
    intro c hc
    obtain ⟨hcolon, hreturn, hnewline⟩ := htext c hc
    simp [CharClass.contains, hcolon, hreturn, hnewline]
  have hfirst : text.head?.any (CharClass.noneOf ":\r\n".toList).contains = true := by
    cases text with
    | nil => exact absurd rfl hne
    | cons c text => exact hall c List.mem_cons_self
  have hspan : (⟨offset, text⟩ : Cursor).Spans text ⟨offset + Chars.byteSize text, []⟩ :=
    ⟨(List.append_nil text).symm, rfl⟩
  rw [outcome_capture, outcome_sequence_cons, outcome_capture, text1Until, outcome_labelled,
    outcome_quiet, noneOf, outcome_many1_chars, if_pos hfirst, Cursor.past_of_all hall]
  simp only [Option.map_some, Option.bind_some, outcome_sequence_cons, outcome_events_nil,
    outcome_sequence_nil, hspan.spanTo]
  rfl

theorem outcome_eol_nil (offset : Nat) :
    eol.outcome table depth ⟨offset, []⟩ = some (⟨offset, []⟩, .empty) := by
  simp [eol, outcome_sequence_cons, outcome_sequence_nil, outcome_ws, Cursor.past, outcome_labelled,
    outcome_optional, comment, lit, outcome_literal, Cursor.skip?, Chars.dropStart?, newline,
    outcome_choice_cons, outcome_choice_nil, endOfInput, anyChar, outcome_notAhead, outcome_chars, Cursor.next?,
    Fragment.append, Fragment.empty, Fragment.toFields]

end

section

variable {depth : Nat}

theorem outcome_statement (cur : Cursor) :
    (Rule.ref "statement").outcome grammar.rules (depth + 1) cur =
      statementRule.outcome grammar.rules depth cur := by
  rw [outcome_ref]
  rfl

/-- Nothing is left for a line at the end. -/
theorem outcome_line_nil (offset : Nat) :
    lineRule.outcome grammar.rules (depth + 1) ⟨offset, []⟩ = none := by
  have hstatement : statementRule.outcome grammar.rules depth ⟨offset, []⟩ = none := by
    rw [statementRule, outcome_labelled]
    simp [outcome_choice_cons, outcome_choice_nil, title, accessibility, keyword, lit,
      outcome_sequence_cons, outcome_capture, outcome_literal, Cursor.skip?, Chars.dropStart?, text1Until,
      outcome_labelled, outcome_quiet, noneOf, outcome_many1_chars]
  have hblank : blankLine.outcome grammar.rules (depth + 1) ⟨offset, []⟩ = none :=
    outcome_blankLine_of_not_mem List.not_mem_nil
  have hws : ws.outcome grammar.rules (depth + 1) ⟨offset, []⟩ = some (⟨offset, []⟩, .items []) :=
    outcome_ws _
  simp only [lineRule, outcome_choice_cons, hblank, outcome_sequence_cons, hws, Option.bind_some,
    outcome_statement, hstatement, Option.bind_none, Option.map_none, Option.none_or, outcome_choice_nil]

/-- The rest of a document that begins as a comment does, without a colon or a line end, is one line,
and that line is a period. -/
theorem outcome_lines_percent {text : List Char} (htext : PlainName ('%' :: text)) (offset : Nat) :
    (many lineRule).outcome grammar.rules (depth + 1) ⟨offset, '%' :: text⟩ =
      some (⟨offset + Chars.byteSize ('%' :: text), []⟩, .items [periodTree ('%' :: text) offset]) := by
  have hnewline : '\n' ∉ '%' :: text := fun hm => (htext _ hm).2.2 rfl
  have hblank : blankLine.outcome grammar.rules (depth + 1) ⟨offset, '%' :: text⟩ = none :=
    outcome_blankLine_of_not_mem hnewline
  have hws : ws.outcome grammar.rules (depth + 1) ⟨offset, '%' :: text⟩ =
      some (⟨offset, '%' :: text⟩, .items []) :=
    outcome_ws _
  have hline : lineRule.outcome grammar.rules (depth + 1) ⟨offset, '%' :: text⟩ =
      some (⟨offset + Chars.byteSize ('%' :: text), []⟩, .fields (periodTree ('%' :: text) offset).fields) := by
    simp only [lineRule, outcome_choice_cons, hblank, outcome_sequence_cons, hws, Option.bind_some,
      outcome_statement, outcome_statement_percent, outcome_period htext (List.cons_ne_nil _ _),
      outcome_eol_nil, outcome_sequence_nil, Option.map_some, Option.none_or, Option.some_or]
    rfl
  have hspan : (⟨offset, '%' :: text⟩ : Cursor).Spans ('%' :: text)
      ⟨offset + Chars.byteSize ('%' :: text), []⟩ := ⟨(List.append_nil _).symm, rfl⟩
  have hne : (⟨offset + Chars.byteSize ('%' :: text), []⟩ : Cursor) ≠ ⟨offset, '%' :: text⟩ := by simp
  have hrest := outcome_many_of_none
    (@outcome_line_nil depth (offset + Chars.byteSize ('%' :: text)))
  rw [many] at hrest ⊢
  rw [outcome_repeated, hline]
  simp only [reduceCtorEq, ↓reduceIte, hne, Nat.zero_sub, Option.map_none, hrest, hspan.spanTo,
    Option.map_some]
  rfl

end

/-! ## The last line -/

/-- How far statements get in a last line that begins as comments do. -/
theorem rules_stop : ∀ entry ∈ grammar.rules, ∀ p ∈ commentLine.places,
    ∀ q ∈ entry.2.places commentLine (commentLine.stopsWithin 2) p,
      q ∈ commentLine.stopsWithin 2 p := by
  decide

/-- The two places between which the lines of a timeline move: before the last line, and at it. -/
def AtLine (tail : List Char) (cur : Cursor) : Prop :=
  Place.Holds commentLine tail .before cur.rest ∨ cur.rest = '%' :: '%' :: tail

theorem AtLine.of_place {tail : List Char} {cur : Cursor} {q : Place} (hq : q = .before ∨ q = .within 0)
    (h : q.Holds commentLine tail cur.rest) : AtLine tail cur := by
  rcases hq with rfl | rfl
  · exact .inl h
  · obtain ⟨-, later, -, hlater, e⟩ := h
    rw [hlater (by decide)] at e
    exact .inr e

section

variable {depth : Nat} {tail : List Char} (htail : ∀ c ∈ tail, ordinary c = true)
include htail

theorem endsAt {r : Rule} :
    EndsAt commentLine tail (r.outcome grammar.rules depth)
      (r.places commentLine (commentLine.stopsWithin 2)) :=
  places_sound (tail_commentLine htail)
    (ref_endsAt (tail_commentLine htail) rules_stop depth) r

/-- The header of a timeline does not reach into the last line. -/
theorem header_atLine {cur next : Cursor} {fragment : Fragment}
    (h : Place.Holds commentLine tail .before cur.rest)
    (hm : (Rule.sequence [preamble, ws, keyword "timeline", eol]).outcome grammar.rules
      depth cur = some (next, fragment)) : AtLine tail next := by
  have hplaces : ∀ q ∈ (Rule.sequence [preamble, ws, keyword "timeline", eol]).places commentLine
      (commentLine.stopsWithin 2) .before, q = .before ∨ q = .within 0 := by
    decide
  obtain ⟨q, hq, hnext⟩ := endsAt htail .before cur next fragment h hm
  exact .of_place (hplaces q hq) hnext

/-- No line goes on into the last line. -/
theorem line_atLine {cur next : Cursor} {fragment : Fragment}
    (h : Place.Holds commentLine tail .before cur.rest)
    (hm : lineRule.outcome grammar.rules depth cur = some (next, fragment)) :
    AtLine tail next := by
  have hplaces : ∀ q ∈ lineRule.places commentLine (commentLine.stopsWithin 2) .before,
      q = .before ∨ q = .within 0 := by
    decide
  obtain ⟨q, hq, hnext⟩ := endsAt htail .before cur next fragment h hm
  exact .of_place (hplaces q hq) hnext

/-- Lines that go on to the end of a document go through the start of its last line. -/
theorem exists_last_lines {cur next : Cursor} {fragment : Fragment} (hcur : AtLine tail cur)
    (hm : (many lineRule).outcome grammar.rules depth cur = some (next, fragment))
    (hend : next.rest = []) :
    ∃ mid trees last, mid.rest = '%' :: '%' :: tail ∧
      (many lineRule).outcome grammar.rules depth mid = some (next, .items last) ∧
      fragment = .items (trees ++ last) := by
  induction hn : cur.rest.length using Nat.strongRecOn generalizing cur fragment with
  | ind n ih =>
    rcases hcur with hbefore | hat
    · have hne : cur.rest ≠ [] := followed_sound hbefore rfl
      rw [many, outcome_repeated] at hm
      simp only [reduceCtorEq, ↓reduceIte, Nat.zero_sub, Option.map_none, Nat.zero_le] at hm
      split at hm
      · obtain ⟨rfl, -⟩ := Prod.mk.inj (Option.some.inj hm)
        exact absurd hend hne
      · rename_i mid captured hs
        split at hm
        · rename_i e
          obtain ⟨rfl, -⟩ := Prod.mk.inj (Option.some.inj hm)
          exact absurd (e ▸ hend) hne
        · rename_i hmoved
          obtain ⟨⟨last, rest⟩, hrest, e⟩ := Option.map_eq_some_iff.1 hm
          obtain ⟨rfl, rfl⟩ := Prod.mk.inj e
          have hlt := (outcome_reaches hs).length_lt hmoved
          obtain ⟨start, trees, more, hstart, hlines, rfl⟩ :=
            ih mid.rest.length (hn ▸ hlt) (line_atLine htail hbefore hs) hrest rfl
          refine ⟨start, captured.round (cur.spanTo mid) ++ trees, more, hstart, hlines, ?_⟩
          rw [List.append_assoc]
          rfl
    · obtain ⟨trees, rfl⟩ := repeated_items hm
      exact ⟨cur, [], trees, hat, hm, rfl⟩

/-- The last statement of a timeline whose last line begins as a comment does is a period. -/
theorem exists_last_tree (hname : PlainName tail) {input : String} {earlier : List Char}
    (hinput : input.toList = earlier ++ '\n' :: '%' :: '%' :: tail) {tree : Tree}
    (h : grammar.parse (depth + 1) input = .ok tree) :
    ∃ trees offset, tree.list "statements" = trees ++ [periodTree ('%' :: '%' :: tail) offset] := by
  obtain ⟨first, next, header, hheader, -, hlines, hend⟩ :=
    exists_rounds_of_parse (show grammar.root = document (keyword "timeline")
      (.capture "statements" (many lineRule)) from rfl) rfl h
  have hfirst : AtLine tail first := header_atLine htail ⟨earlier, hinput⟩ hheader
  obtain ⟨mid, trees, last, hmid, hmore, hlist⟩ := exists_last_lines htail hfirst hlines hend
  have hlast : last = [periodTree ('%' :: '%' :: tail) mid.offset] := by
    obtain ⟨offset, rest⟩ := mid
    obtain rfl : rest = '%' :: '%' :: tail := hmid
    rw [outcome_lines_percent hname.percent] at hmore
    exact (Fragment.items.inj (Prod.mk.inj (Option.some.inj hmore)).2).symm
  exact ⟨trees, mid.offset, hlast ▸ Fragment.items.inj hlist⟩

/-- A last line that begins as a comment does is read as the last period of its timeline. -/
theorem last_period_of_read (hname : PlainName tail) {input : String} {earlier : List Char}
    (hinput : input.toList = earlier ++ '\n' :: '%' :: '%' :: tail) {tree : Tree}
    (h : grammar.parse (depth + 1) input = .ok tree) {chronicle : Chronicle} (hread : read tree = .ok chronicle) :
    chronicle.periods.getLast?.map (·.name) =
      some (trim (String.ofList ('%' :: '%' :: tail))) := by
  obtain ⟨trees, offset, hlist⟩ := exists_last_tree htail hname hinput h
  rw [read, hlist, Shapes.readPlaced, List.mapM_append] at hread
  simp only [List.mapM_cons, List.mapM_nil, read_periodTree] at hread
  cases hearlier : trees.mapM fun t => do return (t.span.offset, ← statements.read t) with
  | error fault =>
    rw [hearlier] at hread
    cases hread
  | ok placed =>
    rw [hearlier] at hread
    have hfold : (placed ++ [(offset, Statement.period (trim (String.ofList ('%' :: '%' :: tail))) [])]).foldlM
        Chronicle.apply {} = .ok chronicle := hread
    rw [List.foldlM_append] at hfold
    cases hstart : placed.foldlM Chronicle.apply {} with
    | error fault =>
      rw [hstart] at hfold
      cases hfold
    | ok before =>
      rw [hstart] at hfold
      have hlast : before.addPeriod (trim (String.ofList ('%' :: '%' :: tail))) [] = chronicle :=
        Except.ok.inj hfold
      rw [← hlast, Chronicle.addPeriod, List.getLast?_concat]
      rfl

end

end DiagramText.Timeline
