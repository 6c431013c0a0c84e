import DiagramText.Proofs.Peg.BodyLines
import DiagramText.Proofs.Peg.Replace

/-!
# Statements and lines

A rule for statements that keeps to a line, starts no comment and captures something (`Rule.IsStatement`) is
given one round for each line that is neither blank nor a comment, and no other round leaves a tree
(`round_statement`). So the trees of an input that is matched as a whole are its lines with content, one by one and
in order, each where its line stands and with the fields of a match on that line.

There is one line too many where a comment ends the input without a line feed: that is no blank line, and a
statement may take the first percent sign if the next two start a comment behind it. So `%%%` is a
statement, where the statement is a percent sign, although the line is a comment.
-/

namespace DiagramText.Peg

open Chars

section

variable {table : List (String × Rule)} {depth : Nat} {statement : Rule} {cur next : Cursor} {a : Fragment}

/-- The rule takes a text within a line, which is neither empty nor a comment, and captures something of it. -/
structure Rule.IsStatement (table : List (String × Rule)) (depth : Nat) (r : Rule) : Prop where
  inLine : r.TakesInLine table depth
  plain : ∀ cur next a text, r.outcome table depth cur = some (next, a) → cur.Spans text next →
    ¬ "%%".toList <+: text
  captures : ∀ cur next a, r.outcome table depth cur = some (next, a) → a.toFields ≠ []

/-- The tree is what the statement leaves of the line of the input: it starts with the line, goes over no other one,
and has the fields of a match behind the indentation, which only a comment may follow on the line. -/
structure IsStatementOf (table : List (String × Rule)) (depth : Nat) (statement : Rule) (input : List Char)
    (line : Nat × List Char) (t : Tree) : Prop where
  starts : t.span.offset = line.1
  covers : Chars.lines t.span.text.toList = [line.2]
  matched : ∃ text trail cur next a, line.2 = indentation line.2 ++ (text ++ trail) ∧ isIdle trail = true ∧
    cur.offset = line.1 + byteSize (indentation line.2) ∧ cur.rest <:+ input ∧
    statement.outcome table depth cur = some (next, a) ∧ cur.Spans text next ∧ t.fields = a.toFields

theorem IsStatementOf.of_suffix {input more : List Char} {line : Nat × List Char} {t : Tree}
    (h : IsStatementOf table depth statement input line t) (hsuffix : input <:+ more) :
    IsStatementOf table depth statement more line t where
  starts := h.starts
  covers := h.covers
  matched :=
    have ⟨text, trail, cur, next, a, hline, idle, hoffset, hrest, taken⟩ := h.matched
    ⟨text, trail, cur, next, a, hline, idle, hoffset, hrest.trans hsuffix, taken⟩

/-- Idle lines in front of a text have no content. -/
theorem placedBody_idle {lead : List Char} (h : Idle lead) (offset : Nat) (rest : List Char) :
    placedBody offset (lead ++ rest) = placedBody (offset + byteSize lead) rest := by
  induction h generalizing offset with
  | nil => rfl
  | @line blanks comment ending more hb hc he _ ih =>
    have idle : isIdle (blanks ++ comment) = true :=
      isIdle_append hb (hc.imp_right fun ⟨text, e, _⟩ => ⟨text, e⟩)
    rw [List.append_assoc, List.append_assoc, placedBody_append_ending (lineEnd_not_mem hb hc) he, idle, if_pos rfl,
      List.nil_append, ih, Nat.add_assoc, ← byteSize_append, List.append_assoc]

/-- A line that is no blank line of the grammar has content, or is a comment that ends the input. -/
theorem InkedLine.placedBody_eq {line ending : List Char} (h : InkedLine cur next line ending)
    (missed : blankLine.outcome table depth cur = none) :
    placedBody cur.offset cur.rest = (cur.offset, line) :: placedBody next.offset next.rest := by
  have behind : cur.rest = line ++ (ending ++ next.rest) := h.spans.rest.trans (List.append_assoc ..)
  rw [h.spans.offset]
  cases idle : isIdle line with
  | false =>
    obtain he | ⟨rfl, hrest⟩ := h.ends
    · rw [behind, placedBody_append_ending h.inLine he, idle]
      rfl
    · rw [behind, hrest, List.append_nil, List.append_nil, placedBody_of_not_mem h.feed_not_mem,
        if_neg (by simpa using h.inked)]
      rfl
  | true =>
    obtain ⟨rfl, hrest⟩ := h.ends.resolve_left fun he => blankLine_ne_none h.spans h.inLine he idle missed
    rw [behind, hrest, List.append_nil, List.append_nil, placedBody_of_not_mem h.feed_not_mem,
      if_neg (by simpa using h.inked)]
    rfl

/-! ## Rounds -/

/-- What is matched of a line that is not blank is a statement of it. -/
theorem exists_statement (hstatement : statement.IsStatement table depth)
    (h : (Rule.sequence [ws, statement, eol]).outcome table depth cur = some (next, a)) :
    ∃ line ending, InkedLine cur next line ending ∧ a.toFields ≠ [] ∧
      IsStatementOf table depth statement cur.rest (cur.offset, line) (a.toTree (cur.spanTo next)) := by
  obtain ⟨first, b, _, hws, hmore, rfl⟩ := sequence_cons_eq_some.1 h
  obtain ⟨second, c, _, hc, hend, rfl⟩ := sequence_cons_eq_some.1 hmore
  obtain ⟨d, heol, rfl⟩ := sequence_singleton_eq_some.1 hend
  rw [outcome_ws] at hws
  obtain ⟨rfl, rfl⟩ := Prod.mk.inj (Option.some.inj hws)
  obtain ⟨text, htext, hne, inLine⟩ := hstatement.inLine _ _ _ hc
  obtain ⟨line, ending, trail, hline, content, idle⟩ := exists_inkedLine htext hne inLine heol
  have front : cur.Spans (indentation cur.rest) (cur.past [' ', '\t'].contains) := cur.spans_past _
  have fields : (Fragment.append (.items []) (c.append (d.append .empty))).toFields = c.toFields := by
    show c.toFields ++ (d.toFields ++ []) = c.toFields
    rw [toFields_of_capturesNone rfl _ _ _ heol, List.append_nil, List.append_nil]
  refine ⟨line, ending, hline, fields ▸ hstatement.captures _ _ _ hc, rfl, ?_, ?_⟩
  · show Chars.lines (cur.spanTo next).text.toList = [line]
    rw [hline.spans.spanTo]
    exact (congrArg Chars.lines String.toList_ofList).trans hline.lines_eq
  · refine ⟨text, trail, _, _, c, ?_, idle, ?_, ⟨_, front.rest.symm⟩, hc, htext, fields⟩
    · rw [← content, indentation_append_unindented]
    · rw [front.offset, hline.indentation_eq]

/-- A round moves over a line. It leaves the statement of the line, unless the line is idle. -/
theorem round_statement (hstatement : statement.IsStatement table depth)
    (h : (statementRound statement).outcome table depth cur = some (next, a)) :
    ∃ taken, placedBody cur.offset cur.rest = taken ++ placedBody next.offset next.rest ∧
      List.Forall₂ (IsStatementOf table depth statement cur.rest) taken (a.round (cur.spanTo next)) := by
  rw [statementRound, outcome_choice_cons] at h
  cases hblank : blankLine.outcome table depth cur with
  | some found =>
    rw [hblank, Option.some_or] at h
    obtain rfl := Option.some.inj h
    obtain ⟨lead, idle, -, hs⟩ := blankLine_idle hblank
    refine ⟨[], ?_, ?_⟩
    · rw [hs.rest, placedBody_idle idle, hs.offset]
      rfl
    · rw [Fragment.round, if_pos (toFields_of_capturesNone rfl _ _ _ hblank)]
      exact .nil
  | none =>
    rw [hblank, Option.none_or] at h
    obtain ⟨r, hr, hm⟩ := choice_eq_some h
    obtain rfl := List.mem_singleton.1 hr
    obtain ⟨line, ending, hline, fields, left⟩ := exists_statement hstatement hm
    refine ⟨[(cur.offset, line)], hline.placedBody_eq hblank, ?_⟩
    rw [Fragment.round, if_neg fields]
    exact .cons left .nil

/-- The rounds up to the end of the input leave the statements of its lines, one by one and in order. -/
theorem statements_of_rounds (hstatement : statement.IsStatement table depth) {trees : List Tree}
    (h : (statementLines statement).outcome table depth cur = some (next, .items trees)) (hrest : next.rest = []) :
    List.Forall₂ (IsStatementOf table depth statement cur.rest) (placedBody cur.offset cur.rest) trees := by
  obtain ⟨trees', e, -, taken, htaken, related⟩ := repeated_ind
    (motive := fun cur next trees => next.rest <:+ cur.rest ∧ ∃ taken,
      placedBody cur.offset cur.rest = taken ++ placedBody next.offset next.rest ∧
      List.Forall₂ (IsStatementOf table depth statement cur.rest) taken trees)
    (fun _ => ⟨List.suffix_refl _, [], rfl, .nil⟩)
    (fun _ _ hs => ⟨List.suffix_refl _, round_statement hstatement hs⟩)
    (fun cur mid next a trees hs _ ⟨hsuffix, later, hlater, related⟩ => by
      obtain ⟨taken, htaken, round⟩ := round_statement hstatement hs
      obtain ⟨text, moved⟩ := outcome_reaches hs
      have behind : mid.rest <:+ cur.rest := ⟨text, moved.rest.symm⟩
      refine ⟨hsuffix.trans behind, taken ++ later, ?_, List.rel_append round ?_⟩
      · rw [htaken, hlater, List.append_assoc]
      · exact related.imp fun _ _ h => h.of_suffix behind) h
  obtain rfl := Fragment.items.inj e
  rw [hrest, show placedBody next.offset [] = [] from rfl, List.append_nil] at htaken
  exact htaken ▸ related

/-! ## Inputs -/

/-- A comment is a statement only if a single percent sign is one, and the comment starts behind it. -/
theorem IsStatementOf.percents {input : List Char} {line : Nat × List Char} {t : Tree}
    (hstatement : statement.IsStatement table depth) (h : IsStatementOf table depth statement input line t)
    (comment : isComment line.2 = true) : "%%%".toList <+: unindented line.2 := by
  obtain ⟨text, trail, cur, next, a, hline, idle, -, -, hm, hs, -⟩ := h.matched
  have content : unindented line.2 = text ++ trail :=
    List.append_cancel_left ((indentation_append_unindented line.2).trans hline)
  obtain ⟨more, hmore⟩ : ['%', '%'] <+: text ++ trail := content ▸ List.isPrefixOf_iff_prefix.1 comment
  have plain : ¬ ['%', '%'] <+: text := hstatement.plain _ _ _ _ hm hs
  obtain ⟨same, hs', hne, -⟩ := hstatement.inLine _ _ _ hm
  obtain rfl : text = same := List.append_cancel_right (hs.rest.symm.trans hs'.rest)
  -- the text is the first percent sign alone, for with both of them it would be a comment
  obtain ⟨rfl, rfl⟩ : text = ['%'] ∧ trail = '%' :: more := by
    match text, hne, plain, hmore with
    | [c], _, _, hmore => simpa [eq_comm] using hmore
    | c :: d :: text, _, plain, hmore =>
      obtain ⟨rfl, rfl, -⟩ : '%' = c ∧ '%' = d ∧ _ := by simpa using hmore
      exact absurd ⟨text, rfl⟩ plain
  have stop : unindented ('%' :: more) = '%' :: more := (@indentation_append [] ('%' :: more) (by simp) (by simp)).2
  obtain empty | ⟨rest, behind⟩ := exists_of_isIdle idle
  · cases stop.symm.trans empty
  · rw [content, stop.symm.trans behind]
    exact ⟨rest, rfl⟩

/-- An input of statements is accounted for line by line: each line with content leaves one tree, in order, that is
what the statement takes of it. So it is of all other trees as well, unless a comment that starts with three percent
signs ends the input without a line feed. -/
theorem statements_of_lines {g : Grammar} {field input : String} {t : Tree}
    (hstatement : statement.IsStatement g.rules depth)
    (accepted : g.parseWithin depth (.capture field (statementLines statement)) input = .ok t) :
    List.Forall₂ (IsStatementOf g.rules depth statement input.toList) (placedBody 0 input.toList) (t.list field) ∧
      (List.Forall₂ (IsStatementOf g.rules depth statement input.toList) (placedContent 0 input.toList)
        (t.list field) ↔ placedComment? 0 input.toList = none) ∧
      ∀ line ∈ placedComment? 0 input.toList, "%%%".toList <+: unindented line.2 := by
  obtain ⟨next, a, hm, hrest, rfl⟩ := parseWithin_eq_ok.1 accepted
  rw [outcome_capture] at hm
  obtain ⟨⟨last, b⟩, hrounds, e⟩ := Option.map_eq_some_iff.1 hm
  obtain ⟨rfl, rfl⟩ := Prod.mk.inj e
  obtain ⟨trees, rfl⟩ := repeated_items hrounds
  have body := statements_of_rounds hstatement hrounds hrest
  rw [Fragment.toTree, Fragment.toFields, list_toNode]
  refine ⟨body, ⟨fun content => ?_, fun ended => ?_⟩, fun line loose => ?_⟩
  · have same := body.length_eq.trans content.length_eq.symm
    rw [placedBody, List.length_append, Cursor.start] at same
    exact Option.toList_eq_nil_iff.1 (List.eq_nil_of_length_eq_zero (Nat.left_eq_add.1 same.symm))
  · rwa [placedBody, Cursor.start, ended, Option.toList_none, List.append_nil] at body
  · have percents := ((List.forall₂_and_left (p := fun line => isComment line.2 = true → _) _ _).1
      (body.imp fun line _ h => ⟨h.percents hstatement, h⟩)).1
    exact percents line (List.mem_append_right _ (Option.mem_toList.2 loose)) (Option.mem_filter_iff.1 loose).2

end

/-! ## Percent signs -/

/-- A percent sign as a statement. -/
def percentSign : Rule := .capture "sign" (lit "%")

theorem isStatement_percentSign (table : List (String × Rule)) (depth : Nat) :
    percentSign.IsStatement table depth := by
  have taken {cur next : Cursor} {a : Fragment} (h : percentSign.outcome table depth cur = some (next, a)) :
      cur.Spans ['%'] next ∧ a.toFields ≠ [] := by
    rw [percentSign, outcome_capture] at h
    obtain ⟨⟨last, b⟩, hm, e⟩ := Option.map_eq_some_iff.1 h
    obtain ⟨rfl, rfl⟩ := Prod.mk.inj e
    exact ⟨lit_spans hm, nofun⟩
  refine ⟨fun cur next a h => ⟨['%'], (taken h).1, by simp, by decide⟩, fun cur next a text h hs => ?_,
    fun cur next a h => (taken h).2⟩
  obtain rfl : text = ['%'] := List.append_cancel_right (hs.rest.symm.trans (taken h).1.rest)
  decide

/-- Percent signs, one to a line. -/
def percentSigns : Grammar := ⟨"percent signs", .capture "signs" (statementLines percentSign), []⟩

theorem exists_parse_of_length {input : String} {count : Nat}
    (h : (percentSigns.parse 20 input).toOption.map (fun t => (t.list "signs").length) = some count) :
    ∃ t, percentSigns.parse 20 input = .ok t ∧ (t.list "signs").length = count := by
  obtain ⟨t, ht, hcount⟩ := Option.map_eq_some_iff.1 h
  exact ⟨t, Reading.toOption_eq_some.1 ht, hcount⟩

/-- Comments of three percent signs and percent signs with a comment behind them, with either line end and with
none. -/
theorem statements_of_percentSigns :
    placedContent 0 " %%%\n\n\t% %%\r\n%%\n%".toList = [(6, "\t% %%".toList), (16, "%".toList)] ∧
      percentSign.IsStatement percentSigns.rules 20 ∧
      ∃ t, percentSigns.parse 20 " %%%\n\n\t% %%\r\n%%\n%" = .ok t ∧
        List.Forall₂
          (IsStatementOf percentSigns.rules 20 percentSign " %%%\n\n\t% %%\r\n%%\n%".toList)
          (placedContent 0 " %%%\n\n\t% %%\r\n%%\n%".toList) (t.list "signs") := by
  have two : (percentSigns.parse 20 " %%%\n\n\t% %%\r\n%%\n%").toOption.map
      (fun t => (t.list "signs").length) = some 2 := by decide +kernel
  obtain ⟨t, accepted, -⟩ := exists_parse_of_length two
  have statements := statements_of_lines (isStatement_percentSign _ _) accepted
  exact ⟨by decide +kernel, isStatement_percentSign _ _, t, accepted, statements.2.1.2 (by decide +kernel)⟩

/-- A comment that ends the input is taken for a percent sign in front of a comment. -/
theorem exists_comment_stated :
    percentSign.IsStatement percentSigns.rules 20 ∧ placedContent 0 "%%%".toList = [] ∧
      ∃ t, percentSigns.parse 20 "%%%" = .ok t ∧ (t.list "signs").length = 1 ∧
        ¬ List.Forall₂ (IsStatementOf percentSigns.rules 20 percentSign "%%%".toList)
          (placedContent 0 "%%%".toList) (t.list "signs") := by
  have one : (percentSigns.parse 20 "%%%").toOption.map (fun t => (t.list "signs").length) = some 1 := by
    decide +kernel
  have idle : placedContent 0 "%%%".toList = [] := by decide +kernel
  obtain ⟨t, accepted, count⟩ := exists_parse_of_length one
  refine ⟨isStatement_percentSign _ _, idle, t, accepted, count, fun each => ?_⟩
  have same := each.length_eq
  rw [idle, count] at same
  cases same

end DiagramText.Peg
