import DiagramText.Proofs.LeadingLines
import DiagramText.Proofs.Peg.Keywords
import DiagramText.Proofs.Peg.LineWise
import DiagramText.Proofs.Peg.Loud

/-!
# Another statement in its place

A document is parsed line after line, and what has been parsed of it does not depend on what comes next if the
rules keep to their text: a round of statements that ends in front of more text is the same in front of any
other (`Rule.Firm`). So a statement may be replaced by one that takes as many bytes, and the tree of the document
has the tree of the new statement in place of the old one (`Slot.replaced`). Where none can be matched
instead the document is not parsed (`Slot.spoiled`).
-/

namespace DiagramText.Peg

variable {table : List (String × Rule)} {depth : Nat} {r statement : Rule} {rules : List Rule}

/-- Whether the rule, where it ends in front of some text, matches the same in front of any other. -/
def Rule.Firm (table : List (String × Rule)) (depth : Nat) (r : Rule) : Prop :=
  ∀ ⦃taken later offset stop a⦄, later ≠ [] →
    r.outcome table depth ⟨offset, taken ++ later⟩ = some (⟨stop, later⟩, a) →
    ∃ leaves : Nat → Fragment, leaves offset = a ∧ ∀ later, r.Takes table depth taken later leaves

section

variable {taken rest later text : List Char} {offset stop : Nat} {a : Fragment} {leaves : Nat → Fragment}

/-- What is taken of a text is taken of it wherever the text starts. -/
theorem exists_at (hm : r.outcome table depth ⟨offset, taken ++ rest⟩ = some (⟨stop, rest⟩, a)) :
    ∃ b : Fragment, ∀ start, r.outcome table depth ⟨start, taken ++ rest⟩ =
      some (⟨start + Chars.byteSize taken, rest⟩, b.map (.shifted start)) := by
  have shifted (start : Nat) : r.outcome table depth ⟨start, taken ++ rest⟩ =
      (r.outcome table depth ⟨0, taken ++ rest⟩).map (shift start).result := by
    rw [← outcome_shifted, Cursor.shifted, Nat.zero_add]
  rw [shifted] at hm
  obtain ⟨⟨⟨stop₀, rest₀⟩, b⟩, hm₀, same⟩ := Option.map_eq_some_iff.1 hm
  obtain ⟨hcur, -⟩ := Prod.mk.inj same
  obtain rfl : rest₀ = rest := congrArg Cursor.rest hcur
  obtain ⟨taken', hs⟩ := outcome_reaches hm₀
  obtain rfl : taken = taken' := List.append_cancel_right hs.rest
  have place : stop₀ = 0 + Chars.byteSize taken := hs.offset
  refine ⟨b, fun start => ?_⟩
  rw [shifted, hm₀, place, Nat.zero_add, Nat.add_comm start]
  rfl

/-! ## Lines -/

/-- A line does not end where something stands behind blanks. -/
theorem Inked.misses_eol (h : Inked rest) {blanks : List Char} (hb : ∀ c ∈ blanks, c = ' ' ∨ c = '\t') :
    eol.Misses table depth (blanks ++ rest) := by
  have noEnd : endOfInput.Misses table depth rest := by
    intro offset
    rw [Option.eq_none_iff_forall_ne_some]
    rintro ⟨next, a⟩ hm
    exact h.ne_nil (endOfInput_rest hm).2.2
  have stop : (Rule.sequence [.optional comment, .choice [newline, endOfInput]]).Misses table depth rest :=
    h.misses_comment.optional.nil_misses (h.misses_newline.or (noEnd.or misses_choice_nil)).sequence
  exact (h.takes_blanks hb).misses (stop.labelled "end of line").sequence

/-- A line-wise rule that takes a line feed is firm. -/
theorem takes_of_feed_mem (hr : r.isLineWise = true) (hfeed : '\n' ∈ taken)
    (hm : r.outcome table depth ⟨offset, taken ++ later⟩ = some (⟨stop, later⟩, a)) :
    ∃ leaves : Nat → Fragment, leaves offset = a ∧ ∀ later, r.Takes table depth taken later leaves := by
  obtain ⟨taken', rest, leaves, rfl, takes⟩ | misses := @decided_of_isLineWise table depth r _ hr hfeed
  · obtain ⟨e, rfl, found⟩ := @Rule.Takes.unique table depth r (taken' ++ rest) [] later offset stop a leaves
      taken' rest (takes later) (List.append_nil _) hm
    rw [List.append_nil]
    exact ⟨leaves, found, takes⟩
  · rw [misses later offset] at hm
    cases hm

theorem feed_mem_of_eol (hlater : later ≠ [])
    (hm : eol.outcome table depth ⟨offset, taken ++ later⟩ = some (⟨stop, later⟩, a)) : '\n' ∈ taken := by
  obtain ⟨text, hs, ends⟩ := eol_spans hm
  obtain rfl : taken = text := List.append_cancel_right hs.rest
  exact List.mem_of_getLast? (ends.resolve_right hlater)

/-- Rules that keep to their text are firm up to the end of a line. -/
theorem firm_line (h : ∀ r ∈ rules, r.Keeps table depth) (hlater : later ≠ [])
    (hm : (Rule.sequence (rules ++ [eol])).outcome table depth ⟨offset, taken ++ later⟩ = some (⟨stop, later⟩, a)) :
    '\n' ∈ taken ∧ ∃ leaves : Nat → Fragment, leaves offset = a ∧
      ∀ later, (Rule.sequence (rules ++ [eol])).Takes table depth taken later leaves := by
  induction rules generalizing taken offset a with
  | nil =>
    obtain ⟨first, more, b, c, rfl, rfl, hb, hc⟩ := exists_of_sequence_cons hm
    obtain ⟨hcur, rfl⟩ := sequence_nil_eq_some.1 hc
    obtain rfl : more = [] := List.append_left_eq_self.1 (congrArg Cursor.rest hcur)
    have hfeed : '\n' ∈ first := feed_mem_of_eol hlater hb
    obtain ⟨leaves, rfl, takes⟩ := takes_of_feed_mem rfl hfeed hb
    exact ⟨List.mem_append_left _ hfeed, _, rfl, fun later => (takes later).append (takes_sequence_nil later)⟩
  | cons r rules ih =>
    obtain ⟨first, more, b, c, rfl, rfl, hb, hc⟩ := exists_of_sequence_cons hm
    obtain ⟨hfeed, leaves', rfl, takes'⟩ := ih (fun r hr => h r (List.mem_cons_of_mem _ hr)) hc
    obtain ⟨leaves, rfl, takes⟩ := h r List.mem_cons_self hfeed hb
    exact ⟨List.mem_append_right _ hfeed, _, rfl, fun later => (takes later).append (takes' later)⟩

/-- A round of statements, or of blank lines between them. -/
def statementRound (statement : Rule) : Rule := .choice [blankLine, .sequence [ws, statement, eol]]

theorem firm_statementRound (h : statement.Keeps table depth) : (statementRound statement).Firm table depth := by
  intro taken later offset stop a hlater hm
  have parts : ∀ r ∈ [ws, statement], r.Keeps table depth := by
    simpa using ⟨keeps_of_isLineWise rfl, h⟩
  rw [statementRound, outcome_choice_cons, Option.or_eq_some_iff] at hm
  obtain hblank | ⟨hnone, hm⟩ := hm
  · obtain ⟨line, -, hfeed, hs⟩ := blankLine_idle hblank
    obtain rfl : taken = line := List.append_cancel_right hs.rest
    obtain ⟨leaves, found, takes⟩ := takes_of_feed_mem rfl hfeed hblank
    exact ⟨leaves, found, fun later => (takes later).choice⟩
  · rw [outcome_choice_cons, outcome_choice_nil, Option.or_none] at hm
    obtain ⟨hfeed, leaves, found, takes⟩ := firm_line parts hlater hm
    obtain ⟨first, rest, leaves', rfl, takes'⟩ | misses := @decided_of_isLineWise table depth blankLine _ rfl hfeed
    · have := takes' later offset
      rw [← List.append_assoc, hnone] at this
      cases this
    · exact ⟨leaves, found, fun later => (misses later).choice (takes later).choice⟩

section

variable {blanks ending : List Char} {fields : List (String × Node)}

theorem round_fields (hne : fields ≠ []) (span : Token) : (Fragment.fields fields).round span = [.mk span fields] :=
  if_neg hne

/-- A round that leaves a tree has a statement between blanks and the end of the line. -/
theorem exists_of_statementRound {t : Tree} {span : Token}
    (hm : (statementRound statement).outcome table depth ⟨offset, taken ++ rest⟩ = some (⟨stop, rest⟩, a))
    (ht : t ∈ a.round span) :
    ∃ blanks text ending stop b last c, taken = blanks ++ (text ++ ending) ∧ (∀ c ∈ blanks, c = ' ' ∨ c = '\t') ∧
      statement.outcome table depth ⟨offset + Chars.byteSize blanks, text ++ (ending ++ rest)⟩ =
        some (⟨stop, ending ++ rest⟩, b) ∧
      eol.outcome table depth ⟨stop, ending ++ rest⟩ = some (⟨last, rest⟩, c) ∧ t.fields = b.toFields := by
  have left : a.toFields ≠ [] ∧ t.fields = a.toFields := by
    rw [Fragment.round] at ht
    split at ht
    · cases ht
    · obtain rfl := List.mem_singleton.1 ht
      exact ⟨‹_›, rfl⟩
  rw [statementRound, outcome_choice_cons, Option.or_eq_some_iff] at hm
  obtain hblank | ⟨-, hm⟩ := hm
  · exact absurd (toFields_of_capturesNone rfl _ _ _ hblank) left.1
  · rw [outcome_choice_cons, outcome_choice_nil, Option.or_none] at hm
    obtain ⟨blanks, line, b, c, rfl, rfl, hws, hline⟩ := exists_of_sequence_cons hm
    obtain ⟨text, ending, d, e, rfl, rfl, hstatement, hend⟩ := exists_of_sequence_cons hline
    obtain ⟨d', heol, rfl⟩ := sequence_singleton_eq_some.1 hend
    obtain ⟨blanks', hblanks, hs⟩ := ws_spans hws
    obtain rfl : blanks = blanks' := List.append_cancel_right hs.rest
    refine ⟨blanks, text, ending, _, d, _, d', rfl, hblanks, hstatement, heol, left.2.trans ?_⟩
    show b.toFields ++ (d.toFields ++ (d'.toFields ++ [])) = d.toFields
    rw [toFields_of_capturesNone rfl _ _ _ hws, toFields_of_capturesNone rfl _ _ _ heol]
    simp

/-- A round takes a statement between blanks and the end of the line. -/
theorem outcome_statementRound {b c : Fragment} {first last : Nat} (inked : Inked text)
    (hblanks : ∀ c ∈ blanks, c = ' ' ∨ c = '\t')
    (h : statement.outcome table depth ⟨offset + Chars.byteSize blanks, text ++ (ending ++ rest)⟩ =
      some (⟨stop, ending ++ rest⟩, b))
    (hend : eol.outcome table depth ⟨first, ending ++ rest⟩ = some (⟨last, rest⟩, c)) :
    (statementRound statement).outcome table depth ⟨offset, (blanks ++ (text ++ ending)) ++ rest⟩ =
      some (⟨offset + Chars.byteSize (blanks ++ (text ++ ending)), rest⟩, .fields b.toFields) := by
  obtain ⟨d, anywhere⟩ := exists_at hend
  obtain ⟨c, hend⟩ : ∃ c, eol.outcome table depth ⟨stop, ending ++ rest⟩ =
      some (⟨stop + Chars.byteSize ending, rest⟩, c) := ⟨_, anywhere stop⟩
  obtain ⟨text', hs⟩ := outcome_reaches h
  obtain rfl : text = text' := List.append_cancel_right hs.rest
  have inkedOn := inked.append (ending ++ rest)
  have size : stop + Chars.byteSize ending = offset + Chars.byteSize (blanks ++ (text ++ ending)) := by
    have : stop = offset + Chars.byteSize blanks + Chars.byteSize text := hs.offset
    rw [this, Chars.byteSize_append, Chars.byteSize_append]
    omega
  have quiet : c.toFields = [] := toFields_of_capturesNone rfl _ _ _ hend
  rw [← size, List.append_assoc, List.append_assoc, statementRound, outcome_choice_cons,
    inkedOn.misses_indented hblanks offset, Option.none_or, outcome_choice_cons, outcome_choice_nil,
    Option.or_none]
  refine sequence_cons_eq_some.2 ⟨_, _, _, inkedOn.takes_blanks hblanks offset, sequence_cons_eq_some.2
    ⟨_, _, _, h, sequence_cons_eq_some.2 ⟨_, _, _, hend, outcome_sequence_nil _, rfl⟩, rfl⟩, ?_⟩
  show Fragment.fields b.toFields = .fields ([] ++ (b.toFields ++ (c.toFields ++ [])))
  rw [quiet, List.nil_append, List.append_nil, List.append_nil]

theorem misses_statementRound (inked : Inked text) (hblanks : ∀ c ∈ blanks, c = ' ' ∨ c = '\t')
    (h : (Rule.sequence [statement, eol]).Misses table depth text) :
    (statementRound statement).Misses table depth (blanks ++ text) :=
  (inked.misses_indented hblanks).or (((inked.takes_blanks hblanks).misses h).or misses_choice_nil)

end

/-! ## Rounds -/

theorem outcome_many_cons {next : Cursor} {trees : List Tree} (hne : taken ≠ [])
    (hr : r.outcome table depth ⟨offset, taken ++ rest⟩ = some (⟨offset + Chars.byteSize taken, rest⟩, a))
    (hs : (many r).outcome table depth ⟨offset + Chars.byteSize taken, rest⟩ = some (next, .items trees)) :
    (many r).outcome table depth ⟨offset, taken ++ rest⟩ =
      some (next, .items (a.round ⟨String.ofList taken, offset⟩ ++ trees)) := by
  have moved : (⟨offset + Chars.byteSize taken, rest⟩ : Cursor) ≠ ⟨offset, taken ++ rest⟩ :=
    fun same => hne (List.append_left_eq_self.1 (congrArg Cursor.rest same).symm)
  rw [many] at hs ⊢
  rw [outcome_repeated, if_neg (by rintro ⟨⟩), hr]
  simp only [if_neg moved, spanTo_taken, Nat.zero_sub, Option.map_none, hs, Option.map_some, Fragment.behind]

/-- What is repeated up to the end of the input is repeated there wherever the text starts. -/
theorem exists_anywhere (hm : (many r).outcome table depth ⟨offset, text⟩ = some (⟨stop, []⟩, a)) :
    ∃ trees : List Tree, ∀ start, (many r).outcome table depth ⟨start, text⟩ =
      some (⟨start + Chars.byteSize text, []⟩, .items (mapAll (.shifted start) trees)) := by
  rw [← List.append_nil text] at hm
  obtain ⟨b, anywhere⟩ := exists_at hm
  rw [List.append_nil] at anywhere
  cases b with
  | items trees => exact ⟨trees, anywhere⟩
  | fields fields =>
    obtain ⟨trees, same⟩ := repeated_items (anywhere 0)
    cases same

/-- Where a repetition up to the end of the input takes a line in a round of its own, between `front` and
`behind`. It leaves `before` in front of what that round leaves, and `after` behind it, further on by what stands
in front of that. -/
structure Slot (table : List (String × Rule)) (depth : Nat) (r : Rule) (offset : Nat)
    (front behind : List Char) (before after : List Tree) : Prop where
  replaced : ∀ line a, line ≠ [] →
    r.outcome table depth ⟨offset + Chars.byteSize front, line ++ behind⟩ =
      some (⟨offset + Chars.byteSize front + Chars.byteSize line, behind⟩, a) →
    ∃ stop, (many r).outcome table depth ⟨offset, front ++ (line ++ behind)⟩ =
      some (⟨stop, []⟩, .items (before ++
        (a.round ⟨String.ofList line, offset + Chars.byteSize front⟩ ++
          mapAll (.shifted (offset + Chars.byteSize front + Chars.byteSize line)) after)))
  spoiled : ∀ text, text ≠ [] → r.outcome table depth ⟨offset + Chars.byteSize front, text⟩ = none →
    (many r).outcome table depth ⟨offset, front ++ text⟩ =
      some (⟨offset + Chars.byteSize front, text⟩, .items before)

/-- Each tree that a repetition leaves is left by a round, which may be replaced. -/
theorem exists_slot {trees : List Tree} {t : Tree} (hfirm : r.Firm table depth)
    (hmoves : ∀ cur a, r.outcome table depth cur ≠ some (cur, a))
    (hm : (many r).outcome table depth ⟨offset, text⟩ = some (⟨stop, []⟩, .items trees)) (ht : t ∈ trees) :
    ∃ front line behind before after a, text = front ++ (line ++ behind) ∧ line ≠ [] ∧
      r.outcome table depth ⟨offset + Chars.byteSize front, line ++ behind⟩ =
        some (⟨offset + Chars.byteSize front + Chars.byteSize line, behind⟩, a) ∧
      t ∈ a.round ⟨String.ofList line, offset + Chars.byteSize front⟩ ∧
      Slot table depth r offset front behind before after := by
  induction hn : text.length using Nat.strongRecOn generalizing text offset trees with
  | ind n ih =>
    rw [← List.append_nil text] at hm
    obtain ⟨-, -, e⟩ | ⟨b, -, hr, -⟩ | ⟨first, more, b, c, hne, rfl, e, hr, hrounds⟩ := exists_of_many hm
    · cases e
      cases ht
    · exact absurd hr (hmoves _ _)
    · rw [List.append_nil] at hr hrounds
      obtain ⟨later, rfl⟩ := repeated_items hrounds
      obtain rfl : trees = b.round ⟨String.ofList first, offset⟩ ++ later := Fragment.items.inj e
      obtain ht | ht := List.mem_append.1 ht
      · obtain ⟨after, anywhere⟩ := exists_anywhere hrounds
        refine ⟨[], first, more, [], after, b, rfl, hne, hr, ht, fun line a hline hr => ?_, fun text _ hr => ?_⟩
        · exact ⟨_, outcome_many_cons hline hr (anywhere (offset + Chars.byteSize line))⟩
        · exact outcome_many_of_none hr
      · have shorter : more.length < n := by
          rw [← hn, List.length_append]
          have := List.length_pos_iff.2 hne
          omega
        obtain ⟨front, line, behind, before, after, a, rfl, hline, hround, hmem, slot⟩ :=
          ih more.length shorter hrounds ht rfl
        obtain ⟨leaves, found, takes⟩ := hfirm (by simp [hline]) hr
        have start (rest : List Char) : r.outcome table depth ⟨offset, first ++ rest⟩ =
            some (⟨offset + Chars.byteSize first, rest⟩, b) := found ▸ takes rest offset
        have place : offset + Chars.byteSize (first ++ front) =
            offset + Chars.byteSize first + Chars.byteSize front := by
          rw [Chars.byteSize_append, Nat.add_assoc]
        refine ⟨first ++ front, line, behind, b.round ⟨String.ofList first, offset⟩ ++ before, after, a,
          (List.append_assoc ..).symm, hline, place ▸ hround, place ▸ hmem, ⟨?_, ?_⟩⟩
        · intro line a hline hr
          rw [place] at hr ⊢
          obtain ⟨stop, hrounds⟩ := slot.replaced line a hline hr
          rw [List.append_assoc, List.append_assoc]
          exact ⟨stop, outcome_many_cons hne (start _) hrounds⟩
        · intro text htext hr
          rw [place] at hr ⊢
          rw [List.append_assoc]
          exact outcome_many_cons hne (start _) (slot.spoiled text htext hr)

/-! ## Sequences in two parts -/

theorem exists_sequence_append {more : List Rule} {cur next last : Cursor} {b c : Fragment}
    (hb : (Rule.sequence rules).outcome table depth cur = some (next, b))
    (hc : (Rule.sequence more).outcome table depth next = some (last, c)) :
    ∃ a, (Rule.sequence (rules ++ more)).outcome table depth cur = some (last, a) ∧
      a.toFields = b.toFields ++ c.toFields := by
  induction rules generalizing cur b with
  | nil =>
    obtain ⟨rfl, rfl⟩ := sequence_nil_eq_some.1 hb
    exact ⟨c, hc, rfl⟩
  | cons r rules ih =>
    obtain ⟨mid, b₁, b₂, hr, hrules, rfl⟩ := sequence_cons_eq_some.1 hb
    obtain ⟨a, ha, fields⟩ := ih hrules
    refine ⟨b₁.append a, sequence_cons_eq_some.2 ⟨mid, b₁, a, hr, ha, rfl⟩, ?_⟩
    show b₁.toFields ++ a.toFields = (b₁.toFields ++ b₂.toFields) ++ c.toFields
    rw [fields, List.append_assoc]

theorem sequence_append_eq_none {more : List Rule} {cur next : Cursor} {b : Fragment}
    (hb : (Rule.sequence rules).outcome table depth cur = some (next, b))
    (hc : (Rule.sequence more).outcome table depth next = none) :
    (Rule.sequence (rules ++ more)).outcome table depth cur = none := by
  rw [Option.eq_none_iff_forall_ne_some]
  rintro ⟨last, a⟩ hm
  obtain ⟨next', b', c, hb', hc', -⟩ := sequence_append_eq_some hm
  obtain ⟨rfl, -⟩ := Prod.mk.inj (Option.some.inj (hb.symm.trans hb'))
  rw [hc] at hc'
  cases hc'

end

/-! ## Documents -/

/-- Where a document has a statement: behind `front` and the blanks that the line starts with, and in front of
what is left of the line and of the document. The statements behind it are further on by the bytes of the
statement and `base` others. -/
structure Stands (g : Grammar) (depth : Nat) (field : String) (statement : Rule) (front blanks behind : List Char)
    (base : Nat) (before after : List Tree) : Prop where
  ends : ¬ Inked behind
  replaced : ∀ text fields, Inked text → fields ≠ [] →
    statement.outcome g.rules depth ⟨Chars.byteSize (front ++ blanks), text ++ behind⟩ =
      some (⟨Chars.byteSize (front ++ blanks) + Chars.byteSize text, behind⟩, .fields fields) →
    ∃ tree span, g.parse depth (String.ofList (front ++ (blanks ++ (text ++ behind)))) = .ok tree ∧
      span.offset = Chars.byteSize front ∧
      tree.list field = before ++ (.mk span fields :: mapAll (.shifted (base + Chars.byteSize text)) after)
  spoiled : ∀ text, Inked text →
    (Rule.sequence [statement, eol]).Misses g.rules depth text →
    ∀ tree, g.parse depth (String.ofList (front ++ (blanks ++ text))) ≠ .ok tree

section

variable {g : Grammar} {header : Rule} {field : String} {input : String} {tree t : Tree}

/-- The statements of a document are the rounds of its body. -/
theorem exists_body (hroot : g.root = document header (.capture field (statementLines statement)))
    (quiet : header.capturesNone = true) (hparse : g.parse depth input = .ok tree) :
    ∃ head body b stop trees, input.toList = head ++ body ∧ tree.list field = trees ∧
      (Rule.sequence [preamble, ws, header, eol]).outcome g.rules depth ⟨0, head ++ body⟩ =
        some (⟨Chars.byteSize head, body⟩, b) ∧ b.toFields = [] ∧
      (many (statementRound statement)).outcome g.rules depth ⟨Chars.byteSize head, body⟩ =
        some (⟨stop, []⟩, .items trees) := by
  obtain ⟨⟨offset, body⟩, ⟨stop, rest⟩, b, hb, noFields, hrounds, rfl⟩ := exists_rounds_of_parse hroot quiet hparse
  obtain ⟨head, hs⟩ := outcome_reaches hb
  obtain rfl : offset = Chars.byteSize head := hs.offset.trans (Nat.zero_add _)
  have e : input.toList = head ++ body := hs.rest
  rw [Cursor.start, e] at hb
  exact ⟨head, body, b, stop, _, e, rfl, hb, noFields, hrounds⟩

variable {head body : List Char} {heading : Fragment} {stop : Nat}

/-- A document is parsed when its rounds end with it. -/
theorem parse_of_rounds {trees : List Tree}
    (hroot : g.root = document header (.capture field (statementLines statement)))
    (hhead : (Rule.sequence [preamble, ws, header, eol]).outcome g.rules depth ⟨0, head ++ body⟩ =
      some (⟨Chars.byteSize head, body⟩, heading)) (noFields : heading.toFields = [])
    (hbody : (many (statementRound statement)).outcome g.rules depth
      ⟨Chars.byteSize head, body⟩ = some (⟨stop, []⟩, .items trees)) :
    ∃ tree, g.parse depth (String.ofList (head ++ body)) = .ok tree ∧ tree.list field = trees := by
  let span : Token := (⟨Chars.byteSize head, body⟩ : Cursor).spanTo ⟨stop, []⟩
  have rounds : (Rule.capture field (statementLines statement)).outcome g.rules depth
      ⟨Chars.byteSize head, body⟩ = some (⟨stop, []⟩, .fields [(field, (Fragment.items trees).toNode span)]) := by
    rw [outcome_capture, statementLines, ← statementRound, hbody]
    rfl
  have ends : (Rule.sequence [endOfInput]).outcome g.rules depth ⟨stop, []⟩ =
      some (⟨stop, []⟩, .fields []) := rfl
  obtain ⟨a, ha, fields⟩ :=
    exists_sequence_append hhead (sequence_cons_eq_some.2 ⟨_, _, _, rounds, ends, rfl⟩)
  refine ⟨a.toTree ⟨String.ofList (head ++ body), 0⟩, ?_, ?_⟩
  · refine parse_eq_ok.2 ⟨⟨stop, []⟩, a, ?_, rfl, rfl⟩
    rw [hroot, Cursor.start, String.toList_ofList]
    exact ha
  · rw [Fragment.toTree, fields, noFields]
    exact list_toNode _ _ _ _

/-- A document is not parsed when its rounds end before it does. -/
theorem not_parsed_of_rounds {rest : List Char} {a : Fragment}
    (hroot : g.root = document header (.capture field (statementLines statement)))
    (hhead : (Rule.sequence [preamble, ws, header, eol]).outcome g.rules depth ⟨0, head ++ body⟩ =
      some (⟨Chars.byteSize head, body⟩, heading))
    (hbody : (many (statementRound statement)).outcome g.rules depth
      ⟨Chars.byteSize head, body⟩ = some (⟨stop, rest⟩, a)) (hrest : rest ≠ []) (tree : Tree) :
    g.parse depth (String.ofList (head ++ body)) ≠ .ok tree := by
  intro hparse
  obtain ⟨next, b, hm, -, -⟩ := parse_eq_ok.1 hparse
  rw [hroot, Cursor.start, String.toList_ofList] at hm
  have stops : (Rule.sequence [.capture field (statementLines statement), endOfInput]).outcome g.rules
      depth ⟨Chars.byteSize head, body⟩ = none := by
    rw [Option.eq_none_iff_forall_ne_some]
    rintro ⟨last, c⟩ hc
    obtain ⟨mid, d, e, hd, he, -⟩ := sequence_cons_eq_some.1 hc
    rw [outcome_capture, statementLines, ← statementRound, hbody] at hd
    obtain ⟨rfl, -⟩ := Prod.mk.inj (Option.some.inj hd)
    obtain ⟨_, _, _, hlast, -, -⟩ := sequence_cons_eq_some.1 he
    exact hrest (endOfInput_rest hlast).2.2
  rw [document] at hm
  cases (sequence_append_eq_none hhead stops).symm.trans hm

/-- Each statement of a document may be replaced. -/
theorem exists_stands (hroot : g.root = document header (.capture field (statementLines statement)))
    (quiet : header.capturesNone = true) (hheader : header.Keeps g.rules depth)
    (hstatement : statement.Keeps g.rules depth)
    (hmoves : ∀ cur a, (statementRound statement).outcome g.rules depth cur ≠ some (cur, a))
    (hparse : g.parse depth input = .ok tree) (ht : t ∈ tree.list field) :
    ∃ front blanks text behind base before after stop b, input.toList = front ++ (blanks ++ (text ++ behind)) ∧
      statement.outcome g.rules depth ⟨Chars.byteSize (front ++ blanks), text ++ behind⟩ =
        some (⟨stop, behind⟩, b) ∧ t.fields = b.toFields ∧
      Stands g depth field statement front blanks behind base before after := by
  obtain ⟨head, body, heading, last, trees, hinput, htrees, hhead, noFields, hbody⟩ :=
    exists_body hroot quiet hparse
  rw [htrees] at ht
  obtain ⟨front, line, behind, before, after, a, rfl, hline, hround, hmem, slot⟩ :=
    exists_slot (firm_statementRound hstatement) hmoves hbody ht
  obtain ⟨blanks, text, ending, stop, b, last, c, rfl, hblanks, htext, hend, fields⟩ :=
    exists_of_statementRound hround hmem
  have parts : ∀ r ∈ [preamble, ws, header], r.Keeps g.rules depth := by
    simpa using ⟨keeps_many rfl, keeps_of_isLineWise rfl, hheader⟩
  have hbodyNe : front ++ (blanks ++ (text ++ ending) ++ behind) ≠ [] :=
    fun e => hline (List.append_eq_nil_iff.1 (List.append_eq_nil_iff.1 e).2).1
  have start (body : List Char) : (Rule.sequence [preamble, ws, header, eol]).outcome g.rules
      depth ⟨0, head ++ body⟩ = some (⟨Chars.byteSize head, body⟩, heading) := by
    obtain ⟨-, leaves, rfl, takes⟩ := firm_line parts hbodyNe hhead
    have := takes body 0
    rwa [Nat.zero_add] at this
  have place : Chars.byteSize (head ++ front ++ blanks) =
      Chars.byteSize head + Chars.byteSize front + Chars.byteSize blanks := by
    rw [Chars.byteSize_append, Chars.byteSize_append]
  refine ⟨head ++ front, blanks, text, ending ++ behind, Chars.byteSize (head ++ front ++ blanks ++ ending), before,
    after, stop, b, ?_, place ▸ htext, fields, ⟨?_, ?_, ?_⟩⟩
  · rw [hinput]
    simp only [List.append_assoc]
  · intro inked
    have := @Inked.misses_eol g.rules depth _ inked [] nofun stop
    rw [List.nil_append, hend] at this
    cases this
  · intro text fields inked hne hm
    rw [place] at hm
    have round := outcome_statementRound inked hblanks hm hend
    obtain ⟨stop, hbody⟩ := slot.replaced _ _ (by simp [inked.ne_nil]) round
    obtain ⟨tree, parsed, found⟩ := parse_of_rounds hroot (start _) noFields hbody
    refine ⟨tree, ⟨String.ofList (blanks ++ (text ++ ending)), Chars.byteSize head + Chars.byteSize front⟩, ?_,
      (Chars.byteSize_append ..).symm, ?_⟩
    · simpa only [List.append_assoc] using parsed
    · have further : Chars.byteSize head + Chars.byteSize front + Chars.byteSize (blanks ++ (text ++ ending)) =
          Chars.byteSize (head ++ front ++ blanks ++ ending) + Chars.byteSize text := by
        simp only [Chars.byteSize_append]
        omega
      rw [found, Fragment.toFields, round_fields hne, List.singleton_append, further]
  · intro text inked hm tree
    have stops := slot.spoiled (blanks ++ text) (by simp [inked.ne_nil])
      (misses_statementRound inked hblanks hm _)
    rw [List.append_assoc]
    exact not_parsed_of_rounds hroot (start _) stops (by simp [inked.ne_nil]) tree

end

end DiagramText.Peg
