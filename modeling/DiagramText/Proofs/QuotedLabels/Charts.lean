import DiagramText.Proofs.QuotedLabels.Brackets

/-!
# Quoted labels in charts

A card, a node of a mind map and an axis keep a quoted label without a closing bracket (`Kanban.keeps_card`,
`Mindmap.keeps_square`, `Radar.keeps_axis`). For each of them: the rule of its statement takes the text, so the
document is parsed (`exists_…`), the statement is read (`read_…`), and nothing is wrong with the diagram.
-/

namespace DiagramText

open Peg Reading

/-! ## Lines of outlines -/

/-- The tree of a line: its indent, and what stands behind it. -/
def outlineLine (span : Token) (start : Nat) (indent : String) (node : Tree) : Tree :=
  .mk span [("indent", .token ⟨indent, start⟩), ("node", .tree node)]

/-! ## Cards -/

namespace Kanban

variable {table : List (String × Rule)} {depth : Nat}

theorem misses_metadata {more : List Char} (h : more = [] ∨ more.head? = some '\n') :
    (Rule.sequence [ws, lit "@\x7b", .capture "metadata" (textUntil "\x7d\r\n"),
      .labelled "'\x7d'" (lit "\x7d")]).Misses table depth more := by
  obtain rfl | h := h
  · exact fun _ => rfl
  · obtain ⟨rest, rfl⟩ := List.head?_eq_some_iff.1 h
    exact fun _ => rfl

/-- A card with its id and its label. -/
theorem takes_card {id raw : String} {text : List Char} (hid : IsName id)
    (label : ClosesLabel table depth "label" raw text) :
    ∃ node : Nat → Tree,
      nodeRule.Takes table depth (id.toList ++ '[' :: text) []
        (fun offset => .fields [("node", .tree (node offset))]) ∧
      ∀ offset, texts (node offset) = [("id", id), ("label", raw)] := by
  have name : word.Takes table depth id.toList ('[' :: text ++ []) fun _ => .items [] := hid.takes_word _
  have given : (Rule.choice [_, .capture "text" (text1Until "@\r\n" "card text")]).Takes table depth
      (id.toList ++ '[' :: text) [] _ := ((name.token rfl "id").optional.cons label.bracketed).choice
  have whole := given.consNil (misses_metadata (.inl rfl)).leaveOutLast
  exact ⟨_, (whole.capture "node").labelled _, fun offset => rfl⟩

/-- A column that is only a text. -/
theorem takes_column (more : List Char) :
    ∃ node : Nat → Tree,
      nodeRule.Takes table depth "Todo".toList ('\n' :: more)
        (fun offset => .fields [("node", .tree (node offset))]) ∧
      ∀ offset, texts (node offset) = [("text", "Todo")] := by
  have name : word.Takes table depth "Todo".toList ('\n' :: more) fun _ => .items [] :=
    takes_word (by decide) (List.all_eq_true.1 (by decide)) (by simp [isWordChar])
  have noLabel : (Rule.sequence [.optional (.capture "id" word), lit "[", .capture "label" (textUntil "]\r\n"),
      lit "]"]).Misses table depth ("Todo".toList ++ '\n' :: more) :=
    (name.token rfl "id").optional.misses (Rule.Misses.sequence fun _ => rfl)
  have text : (text1Until "@\r\n" "card text").Takes table depth "Todo".toList ('\n' :: more)
      fun _ => .items [] := takes_text1Until (by decide) (by simp) (by simp) _
  have given : (Rule.choice [_, .capture "text" (text1Until "@\r\n" "card text")]).Takes table depth
      "Todo".toList ('\n' :: more) _ := noLabel.choice (text.token rfl "text").choice
  have whole := given.consNil (misses_metadata (.inr rfl)).leaveOutLast
  exact ⟨_, (whole.capture "node").labelled _, fun offset => rfl⟩

theorem exists_card {id raw : String} {text : List Char} (hid : IsName id)
    (label : ClosesLabel grammar.rules depth "label" raw text) :
    ∃ t span span' start start' column card,
      grammar.parse (depth + 1) (String.ofList ("kanban".toList ++ ['\n'] ++
        (("Todo".toList ++ ['\n']) ++ ("  ".toList ++ (id.toList ++ '[' :: text))))) = .ok t ∧
      t.list "lines" = [outlineLine span start "" column, outlineLine span' start' "  " card] ∧
      texts column = [("text", "Todo")] ∧ texts card = [("id", id), ("label", raw)] := by
  obtain ⟨card, cardTaken, isCard⟩ := takes_card hid label
  obtain ⟨column, columnTaken, isColumn⟩ :=
    @takes_column grammar.rules depth ("  ".toList ++ (id.toList ++ '[' :: text) ++ [])
  have cardStatement := @Rule.Takes.ref _ _ _ _ _ _ "node" rfl cardTaken
  have columnStatement := @Rule.Takes.ref _ _ _ _ _ _ "node" rfl columnTaken
  -- the lines are taken from the last one on, each in front of those behind it
  have noLine : (Rule.sequence [.capture "indent" ws, .ref "node", eol]).Misses grammar.rules (depth + 1) [] :=
    fun _ => rfl
  have inked : Inked (id.toList ++ '[' :: text ++ ([] ++ ([] ++ []))) := (hid.inked.append _).append _
  have blanks : ∀ c ∈ "  ".toList, c = ' ' ∨ c = '\t' := by simp
  have cardLine := takes_lines_cons (hid.inked.append _).ne_nil (inked.misses_indented blanks)
    ((inked.takes_blanks blanks).token rfl "indent") cardStatement (takes_eol (.inr ⟨rfl, rfl⟩)) rfl
    (misses_blankLine_nil.or (noLine.or misses_choice_nil)).many
  simp only [List.append_nil] at cardLine
  have todo : Inked ("Todo".toList ++ (['\n'] ++ ("  ".toList ++ (id.toList ++ '[' :: text) ++ []))) :=
    ⟨'T', by rfl, by decide⟩
  have noIndent : ws.Takes grammar.rules (depth + 1) "".toList _ _ := todo.takes_ws
  have lines := takes_lines_cons (by decide) (@Inked.misses_indented _ _ _ todo [] nofun)
    (noIndent.token rfl "indent") columnStatement (takes_eol (.inl rfl)) rfl cardLine
  obtain ⟨t, offset, parsed, found⟩ := exists_rounds rfl ⟨'k', by rfl, by decide⟩
    (takes_headline "kanban" _) rfl (.inl rfl) lines
  exact ⟨t, _, _, _, _, column _, card _, parsed, found, isColumn _, isCard _⟩

theorem read_column {span : Token} {start : Nat} {column : Tree} (h : texts column = [("text", "Todo")]) :
    entries.read (outlineLine span start "" column) = .ok { id := none, label := "Todo", metadata := [] } := by
  have name : column.filled? "id" = none := filled?_of_none _ _ (text?_of_texts _ _ h rfl)
  have noLabel : column.filled? "label" = none := filled?_of_none _ _ (text?_of_texts _ _ h rfl)
  have text : column.filled? "text" = some "Todo" :=
    filled?_of_text? _ _ (text?_of_texts _ _ h rfl) (by decide) (by decide)
  have metadata : column.filled? "metadata" = none := filled?_of_none _ _ (text?_of_texts _ _ h rfl)
  refine (read_of_find? rfl).trans ?_
  dsimp only
  refine bind_eq_ok.2 ⟨column, rfl, ?_⟩
  rw [Tree.string?, name, noLabel, text, metadata]
  rfl

theorem read_cardEntry {span : Token} {start : Nat} {card : Tree} {id s : String} (hid : IsName id)
    (h : texts card = [("id", id), ("label", quote s)]) :
    entries.read (outlineLine span start "  " card) = .ok { id := some id, label := s, metadata := [] } := by
  have name : card.filled? "id" = some id :=
    filled?_of_text? _ _ (text?_of_texts _ _ h rfl) hid.trim_eq fun e => hid.ne_nil (e ▸ rfl)
  have label : card.string? "label" = some s := string?_of_quoted (text?_of_texts _ _ h rfl)
  have metadata : card.filled? "metadata" = none := filled?_of_none _ _ (text?_of_texts _ _ h rfl)
  refine (read_of_find? rfl).trans ?_
  dsimp only
  refine bind_eq_ok.2 ⟨card, rfl, ?_⟩
  rw [name, label, metadata]
  rfl

/-- The board of one column. -/
def boardOf (cards : List Card) : Board := { columns := [{ id := "column-0", label := "Todo", cards }] }

theorem apply_column (offset : Nat) :
    Board.apply (none, {}) ⟨offset, 0, 0, ⟨none, "Todo", []⟩⟩ = .ok (some 0, boardOf []) := by
  have made : "column-" ++ toString 0 = "column-0" := by decide
  rw [boardOf, ← made]
  rfl

theorem apply_card {id s : String} (hid : IsName id) (offset : Nat) :
    Board.apply (some 0, boardOf []) ⟨offset, 1, 2, ⟨some id, s, []⟩⟩ =
      .ok (some 0, boardOf [{ id, label := s }]) := by
  have fresh : (boardOf []).hasId id = false := by
    simp [boardOf, Board.hasId, Board.ids, Board.cards, hid.ne_column.symm]
  show (if (boardOf []).hasId id then _ else _) = _
  rw [fresh]
  rfl

theorem issues_boardOf {id s : String} (hid : IsName id) : (boardOf [{ id, label := s }]).issues = [] := by
  have apart := hid.ne_column
  simp [boardOf, Board.issues, Board.ids, Board.cards, Issue.ofCount, Issue.repeated, Issue.repeated.go,
    apart.symm]

theorem read_card {t : Tree} {span span' : Token} {start start' : Nat} {column card : Tree} {id s : String}
    (hid : IsName id)
    (hlist : t.list "lines" = [outlineLine span start "" column, outlineLine span' start' "  " card])
    (hcolumn : texts column = [("text", "Todo")]) (hcard : texts card = [("id", id), ("label", quote s)]) :
    read t = .ok (boardOf [{ id, label := s }]) := by
  have width : "  ".length = 2 := by decide
  have noIndent : (outlineLine span start "" column).text? "indent" = some "" := rfl
  have indent : (outlineLine span' start' "  " card).text? "indent" = some "  " := rfl
  rw [read, hlist, readAll_cons (read_column hcolumn) (readAll_cons (read_cardEntry hid hcard) rfl)]
  refine bind_eq_ok.2 ⟨_, rfl, bind_eq_ok.2 ⟨(some 0, _), ?_, rfl⟩⟩
  simp only [List.zip_cons_cons, List.zip_nil_left, List.mapIdx_cons, List.mapIdx_nil, List.foldlM_cons,
    List.foldlM_nil, noIndent, indent, Option.elim_some, width]
  exact bind_eq_ok.2 ⟨_, apply_column _, bind_eq_ok.2 ⟨_, apply_card hid _, rfl⟩⟩

theorem keeps_card {options : ParseOptions} {id s : String} (hid : IsName id)
    (h : ∀ c ∈ s.toList, c ≠ '\r' ∧ c ≠ '\n') (hfree : ']' ∉ s.toList) :
    LabelPlace.kanbanCard.Keeps options id s := by
  obtain ⟨t, span, span', start, start', column, card, parsed, hlist, isColumn, isCard⟩ :=
    exists_card hid (closesLabel_quote h hfree _)
  refine LabelPlace.keeps_of_parse parsed (read_card hid hlist isColumn isCard) ?_ ?_
  · intro issue mem
    change issue ∈ (boardOf _).issues at mem
    rw [issues_boardOf hid] at mem
    cases mem
  · simp [labelOf?, LabelPlace.kind, boardOf, Board.card?, Board.cards]

end Kanban

/-! ## Square nodes -/

namespace Mindmap

variable {table : List (String × Rule)} {depth : Nat}

theorem takes_square {id raw : String} {text : List Char} (hid : IsName id)
    (label : ClosesLabel table depth "text" raw text) :
    ∃ node : Nat → Tree,
      statementRule.Takes table depth (id.toList ++ '[' :: text) []
        (fun offset => .fields [("node", .tree (node offset))]) ∧
      ∀ offset, texts (node offset) = [("id", id), ("shape", "["), ("text", raw)] := by
  have noClasses : (Rule.sequence [lit ":::", ws, .capture "classes" restOfLine]).Misses table depth
      (id.toList ++ '[' :: text ++ []) := by
    rw [List.append_nil]
    exact (hid.misses_lit rfl rfl _).sequence
  have noIcon : (Rule.sequence [lit "::icon(", .capture "icon" (textUntil ")\r\n"), lit ")"]).Misses table depth
      (id.toList ++ '[' :: text ++ []) := by
    rw [List.append_nil]
    exact (hid.misses_lit rfl rfl _).sequence
  have name : (text1Until "[(\x7b)\r\n" "node").Takes table depth id.toList ('[' :: text ++ [])
      fun _ => .items [] := takes_text1Until hid.ne_nil (hid.not_mem (by decide)) (by simp) _
  have opened : (lit "[").Takes table depth "[".toList (text ++ []) fun _ => .empty := takes_lit "[" _
  have square : (delimited "[" "]\r\n" "]").Takes table depth ('[' :: text) [] _ :=
    (opened.token rfl "shape").cons label
  have noCircle : (delimited "((" ")\r\n" "))").Misses table depth ('[' :: text ++ []) := fun _ => rfl
  have noBang : (delimited "))" "(\r\n" "((").Misses table depth ('[' :: text ++ []) := fun _ => rfl
  have noHexagon : (delimited "\x7b\x7b" "\x7d\r\n" "\x7d\x7d").Misses table depth ('[' :: text ++ []) :=
    fun _ => rfl
  have shape : shapeRule.Takes table depth ('[' :: text) [] _ :=
    (noCircle.choice (noBang.choice (noHexagon.choice square.choice))).labelled _
  have whole := ((name.token rfl "id").cons shape.optional.last).capture "node"
  exact ⟨_, (noClasses.choice (noIcon.choice whole.choice)).labelled _, fun offset => rfl⟩

theorem exists_square {id raw : String} {text : List Char} (hid : IsName id)
    (label : ClosesLabel grammar.rules depth "text" raw text) :
    ∃ t span start node,
      grammar.parse (depth + 1) (String.ofList ("mindmap".toList ++ ['\n'] ++ (id.toList ++ '[' :: text))) = .ok t ∧
      t.list "lines" = [outlineLine span start "" node] ∧
      texts node = [("id", id), ("shape", "["), ("text", raw)] := by
  obtain ⟨node, taken, isNode⟩ := takes_square hid label
  have statement := @Rule.Takes.ref _ _ _ _ _ _ "statement" rfl taken
  have inked : Inked (id.toList ++ '[' :: text) := hid.inked.append _
  have noIndent : ws.Takes grammar.rules (depth + 1) "".toList (id.toList ++ '[' :: text) _ :=
    inked.takes_ws
  obtain ⟨t, span, offset, parsed, lines⟩ := exists_round rfl ⟨'m', by rfl, by decide⟩
    (takes_headline "mindmap" _) rfl inked (noIndent.token rfl "indent") statement fun _ => rfl
  exact ⟨t, span, offset, node offset, parsed, lines, isNode offset⟩

theorem read_square {t : Tree} {span : Token} {start : Nat} {node : Tree} {id s : String} (hid : IsName id)
    (hlist : t.list "lines" = [outlineLine span start "" node])
    (h : texts node = [("id", id), ("shape", "["), ("text", quote s)]) :
    read t = .ok { nodes := [{ id, label := s, shape := .square, parent := none, level := 0 }] } := by
  have name : (node.needText "id" : Reading Fallacy String) = .ok id :=
    needText_of_text? _ _ (text?_of_texts _ _ h rfl) hid.trim_eq
  have shape : node.text? "shape" = some "[" := text?_of_texts _ _ h rfl
  have label : node.string? "text" = some s := string?_of_quoted (text?_of_texts _ _ h rfl)
  have statement : statements.read (outlineLine span start "" node) = .ok (.node id s .square) := by
    refine (read_of_find? rfl).trans ?_
    dsimp only
    refine bind_eq_ok.2 ⟨node, rfl, bind_eq_ok.2 ⟨id, name, ?_⟩⟩
    rw [shape, label]
    rfl
  rw [read, hlist, readAll_cons statement rfl]
  rfl

theorem keeps_square {options : ParseOptions} {id s : String} (hid : IsName id)
    (h : ∀ c ∈ s.toList, c ≠ '\r' ∧ c ≠ '\n') (hfree : ']' ∉ s.toList) :
    LabelPlace.mindmapNode.Keeps options id s := by
  obtain ⟨t, span, start, node, parsed, hlist, isNode⟩ := exists_square hid (closesLabel_quote h hfree _)
  exact LabelPlace.keeps_of_parse parsed (read_square hid hlist isNode) nofun
    (by simp [labelOf?, LabelPlace.kind, Map.find?])

end Mindmap

/-! ## Axes -/

namespace Radar

variable {table : List (String × Rule)} {depth : Nat}

theorem takes_axis {id raw : String} {text : List Char} (hid : IsName id)
    (label : ClosesLabel table depth "label" raw text) :
    ∃ axis : Nat → Tree,
      statementRule.Takes table depth ("axis".toList ++ ([' '] ++ (id.toList ++ '[' :: text))) []
        (fun offset => .fields [("axis", .tree (axis offset))]) ∧
          ∀ offset, texts (axis offset) = [("id", id), ("label", raw)] := by
  have noTitle : (Peg.title "title").Misses table depth
      ("axis".toList ++ ([' '] ++ (id.toList ++ '[' :: text)) ++ []) := fun _ => rfl
  have noCaption : (accessibility "acc_title" "acc_descr").Misses table depth
      ("axis".toList ++ ([' '] ++ (id.toList ++ '[' :: text)) ++ []) := fun _ => rfl
  have noMore : (Rule.sequence [ws, lit ",", ws, axisRule]).Misses table depth [] := fun _ => rfl
  have name : word.Takes table depth id.toList ('[' :: text ++ []) fun _ => .items [] := hid.takes_word _
  have space : ws1.Takes table depth [' '] (id.toList ++ '[' :: text ++ []) fun _ => .items [] := by
    rw [List.append_nil]
    exact hid.takes_space _
  have word : (keyword "axis").Takes table depth "axis".toList ([' '] ++ (id.toList ++ '[' :: text) ++ [])
      fun _ => .fields [] := takes_keyword "axis" (by simp [isWordChar])
  have axis := ((name.token rfl "id").cons label.bracketed.optional.last).capture "axis"
  have whole := word.skip rfl (space.skip rfl (axis.consNil noMore.many.last))
  exact ⟨_, (noTitle.choice (noCaption.choice whole.choice)).labelled _, fun offset => rfl⟩

theorem exists_axis {id raw : String} {text : List Char} (hid : IsName id)
    (label : ClosesLabel grammar.rules depth "label" raw text) :
    ∃ t span axis, grammar.parse (depth + 1) (String.ofList
        ("radar-beta".toList ++ ['\n'] ++ ("axis".toList ++ ([' '] ++ (id.toList ++ '[' :: text))))) = .ok t ∧
      t.list "statements" = [.mk span [("axis", .tree axis)]] ∧ texts axis = [("id", id), ("label", raw)] := by
  obtain ⟨axis, taken, isAxis⟩ := takes_axis hid label
  have statement := @Rule.Takes.ref _ _ _ _ _ _ "statement" rfl taken
  have inked : Inked ("axis".toList ++ ([' '] ++ (id.toList ++ '[' :: text))) := ⟨'a', by rfl, by decide⟩
  obtain ⟨t, span, offset, parsed, statements⟩ := exists_round rfl ⟨'r', by rfl, by decide⟩
    (takes_headline "radar-beta" _).choice rfl inked inked.takes_ws statement fun _ => rfl
  exact ⟨t, span, axis offset, parsed, statements, isAxis offset⟩

theorem read_axis {t : Tree} {span : Token} {axis : Tree} {id s : String} (hid : IsName id)
    (hlist : t.list "statements" = [.mk span [("axis", .tree axis)]])
    (h : texts axis = [("id", id), ("label", quote s)]) : read t = .ok { axes := [⟨id, s⟩] } := by
  have name : (axis.needText "id" : Reading Fallacy String) = .ok id :=
    needText_of_text? _ _ (text?_of_texts _ _ h rfl) hid.trim_eq
  have label : axis.string? "label" = some s := string?_of_quoted (text?_of_texts _ _ h rfl)
  have statement : statements.read (.mk span [("axis", .tree axis)]) = .ok (.axes [⟨id, s⟩]) := by
    have head : head axis = .ok (id, s) := bind_eq_ok.2 ⟨id, name, by rw [label]; rfl⟩
    refine (read_of_find? rfl).trans ?_
    dsimp only
    refine bind_eq_ok.2 ⟨[⟨id, s⟩], ?_, rfl⟩
    show [axis].mapM _ = _
    rw [List.mapM_cons, head]
    rfl
  rw [read, hlist, readPlaced_singleton statement]
  rfl

theorem keeps_axis {options : ParseOptions} {id s : String} (hid : IsName id)
    (h : ∀ c ∈ s.toList, c ≠ '\r' ∧ c ≠ '\n') (hfree : ']' ∉ s.toList) :
    LabelPlace.radarAxis.Keeps options id s := by
  obtain ⟨t, span, axis, parsed, hlist, isAxis⟩ := exists_axis hid (closesLabel_quote h hfree _)
  refine LabelPlace.keeps_of_parse parsed (read_axis hid hlist isAxis) ?_ ?_
  · intro issue hissue
    obtain rfl := List.mem_singleton.1 hissue
    rfl
  · simp [labelOf?, LabelPlace.kind]

end Radar

end DiagramText
