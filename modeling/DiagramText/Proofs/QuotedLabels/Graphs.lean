import DiagramText.Proofs.Peg.Captures
import DiagramText.Proofs.QuotedLabels.Brackets
import DiagramText.Proofs.UniqueIds

/-!
# Quoted labels in graphs

A node of a flowchart keeps every quoted label (`Flowchart.keeps_node`), for the label of a node may be a text
in quotes. A service keeps a quoted label without a closing bracket (`Architecture.keeps_service`), and no
other one: whatever the document, the title of a service ends before the first closing bracket
(`Architecture.bracket_not_mem`).
-/

namespace DiagramText

open Peg Reading

/-! ## Nodes -/

namespace Flowchart

variable {table : List (String × Rule)} {depth : Nat} {more : List Char}

theorem misses_brackets {opening stop : String} {closing : Rule} (h : ¬ opening.toList <+: more) :
    (bracketsRule opening stop closing).Misses table depth more := ((misses_lit h).capture _).sequence

theorem takes_shape {s : String} (h : ∀ c ∈ s.toList, c ≠ '\r' ∧ c ≠ '\n') :
    ∃ fields : Nat → List (String × DiagramText.Node),
      shapeRule.Takes table depth ('[' :: ((quote s).toList ++ [']'])) []
        (fun offset => .fields (fields offset)) ∧
      ∀ span offset, texts (.mk span (fields offset)) =
          [("shape_open", "["), ("label", quote s), ("shape_close", "]")] := by
  have opened : (lit "[").Takes table depth "[".toList ((quote s).toList ++ [']'] ++ []) fun _ => .empty :=
    takes_lit "[" _
  have label : (Rule.choice [quotedString, textUntil "]\r\n"]).Takes table depth (quote s).toList
    ([']'] ++ []) _ := (takes_quotedString h _).choice
  have closed : (lit "]").Takes table depth "]".toList [] fun _ => .empty := takes_lit "]" _
  have behind := (label.token rfl "label").cons (closed.token rfl "shape_close").last
  have square : (bracketsRule "[" "]\r\n" (lit "]")).Takes table depth ('[' :: ((quote s).toList ++ [']']))
    [] _ := (opened.token rfl "shape_open").cons behind
  obtain ⟨cs, e⟩ : ∃ cs, (quote s).toList = '"' :: cs := ⟨_, toList_quote s⟩
  have others {opening stop : String} {closing : Rule}
      (hne : ¬ opening.toList <+: '[' :: '"' :: (cs ++ [']'] ++ [])) :
      (bracketsRule opening stop closing).Misses table depth ('[' :: ((quote s).toList ++ [']']) ++ []) := by
    rw [e]
    exact misses_brackets hne
  refine ⟨_, (others ?_).choice ((others ?_).choice ((others ?_).choice ((others ?_).choice ((others ?_).choice
    ((others ?_).choice ((others ?_).choice square.choice)))))), fun _ _ => rfl⟩
  all_goals simp

theorem isNodeChar_of_isNameChar {c : Char} (h : isNameChar c = true) : isNodeChar c = true := by
  rw [isNameChar, Bool.or_eq_true] at h
  rw [isNodeChar, Bool.or_eq_true]
  refine h.imp_left fun plain => ?_
  have ascii : c.toNat < 128 := by
    unfold Char.isAlphanum Char.isAlpha Char.isUpper Char.isLower Char.isDigit at plain
    simp only [ge_iff_le, Bool.or_eq_true, Bool.and_eq_true, decide_eq_true_eq, UInt32.le_iff_toNat_le] at plain
    rw [← Char.toNat_val]
    grind
  rw [isAlphanumeric_of_lt ascii, plain]

theorem takes_member {id s : String} (hid : IsName id) (h : ∀ c ∈ s.toList, c ≠ '\r' ∧ c ≠ '\n') :
    ∃ node : Nat → Tree,
      (Rule.capture "member" nodeRule).Takes table depth (id.toList ++ '[' :: ((quote s).toList ++ [']'])) []
        (fun offset => .fields [("member", .tree (node offset))]) ∧
      ∀ offset, texts (node offset) =
        [("id", id), ("shape_open", "["), ("label", quote s), ("shape_close", "]")] := by
  obtain ⟨shape, shapeTaken, isShape⟩ := @takes_shape table depth s h
  have noEnd : (keyword "end").Misses table depth (id.toList ++ '[' :: ((quote s).toList ++ [']']) ++ []) := by
    rw [List.append_nil]
    exact hid.misses_keyword (by decide) hid.ne_end _
  have name : idRule.Takes table depth id.toList ('[' :: ((quote s).toList ++ [']']) ++ [])
      fun _ => .items [] := by
    refine Rule.Takes.labelled
      (@takes_many1_chars _ _ _ _ (.satisfying isNodeChar "node identifier character") hid.ne_nil ?_ ?_) _
    · exact fun c hc => isNodeChar_of_isNameChar (hid.plain c hc)
    · rintro c ⟨⟩
      decide
  have noClass : (Rule.sequence [lit ":::", .capture "css_class" word]).Misses table depth [] := fun _ => rfl
  have named := (name.token rfl "id").cons (shapeTaken.optional.consNil noClass.leaveOutLast)
  have node : nodeRule.Takes table depth (id.toList ++ '[' :: ((quote s).toList ++ [']'])) [] _ :=
    noEnd.notAhead.nilSkip rfl named
  refine ⟨_, node.capture "member", fun offset => ?_⟩
  exact congrArg (("id", id) :: ·) (by rw [List.append_nil]; exact isShape ⟨"", 0⟩ _)

theorem takes_nodes {id s : String} (hid : IsName id) (h : ∀ c ∈ s.toList, c ≠ '\r' ∧ c ≠ '\n') :
    ∃ nodes node : Nat → Tree,
      statementRule.Takes table depth (id.toList ++ '[' :: ((quote s).toList ++ [']'])) []
        (fun offset => .fields [("nodes", .tree (nodes offset))]) ∧
      ∀ offset, (nodes offset).getAll "member" = [.tree (node offset)] ∧
        texts (node offset) = [("id", id), ("shape_open", "["), ("label", quote s), ("shape_close", "]")] := by
  obtain ⟨node, member, isNode⟩ := @takes_member table depth id s hid h
  have noMore : (Rule.sequence [ws, lit "&", ws, .capture "member" nodeRule]).Misses table depth [] :=
    fun _ => rfl
  have group : groupRule.Takes table depth (id.toList ++ '[' :: ((quote s).toList ++ [']'])) [] _ :=
    member.consNil noMore.many.last
  have noLink : (Rule.sequence [ws, linkRule, ws, .capture "target" groupRule]).Misses table depth [] :=
    fun _ => rfl
  have noChain : (Rule.capture "chain" (.sequence [.capture "head" groupRule,
      .capture "links" (many1 (.sequence [ws, linkRule, ws, .capture "target" groupRule]))])).Misses
        table depth (id.toList ++ '[' :: ((quote s).toList ++ [']']) ++ []) :=
    ((group.capture "head").misses (noLink.many1.capture "links").sequence).capture "chain"
  have other {start : String} {rules : List Rule} (plain : start.toList.all isNameChar = true)
      (hs : (Rule.sequence rules).Misses table depth ('[' :: ((quote s).toList ++ [']']))) :
      (Rule.sequence (keyword start :: rules)).Misses table depth
        (id.toList ++ '[' :: ((quote s).toList ++ [']']) ++ []) := by
    rw [List.append_nil]
    exact hid.misses_headed plain hs
  have noCaption : (accessibility "acc_title" "acc_descr").Misses table depth
      (id.toList ++ '[' :: ((quote s).toList ++ [']']) ++ []) :=
    (other (by decide) fun _ => rfl).or ((other (by decide) fun _ => rfl).or misses_choice_nil)
  refine ⟨_, node, Rule.Takes.labelled (
    ((other (by decide) fun _ => rfl).capture "subgraph").choice <|
    ((other (by decide) fun _ => rfl).capture "direction_statement").choice <|
    ((other (by decide) fun _ => rfl).capture "class_def").choice <|
    ((other (by decide) fun _ => rfl).capture "class_statement").choice <|
    ((other (by decide) fun _ => rfl).capture "style_statement").choice <|
    ((other (by decide) fun _ => rfl).capture "link_style").choice <|
    ((other (by decide) fun _ => rfl).capture "click").choice <|
    noCaption.choice <|
    noChain.choice <|
    (group.capture "nodes").choice) _, fun offset => ⟨rfl, isNode offset⟩⟩

/-- The header, with a line feed behind it. -/
theorem takes_header {more : List Char} :
    (Rule.sequence [.choice [keywordAnyCase "flowchart", keywordAnyCase "graph"],
      .optional (.sequence [ws1, .capture "direction" directionRule])]).Takes table depth
        "flowchart".toList ('\n' :: more) fun _ => .fields [] := by
  have noWord : wordChar.Misses table depth ('\n' :: more) := fun _ => rfl
  have word : (keywordAnyCase "flowchart").Takes table depth "flowchart".toList ('\n' :: more)
      fun _ => .fields [] := by
    have start := (takes_anyCase "flowchart" _).skip rfl (noWord.notAhead.skipLast rfl)
    rwa [List.append_nil] at start
  have noDirection : (Rule.sequence [ws1, .capture "direction" directionRule]).Misses table depth
      ('\n' :: more) := fun _ => rfl
  exact (@Rule.Takes.choice _ _ _ [keywordAnyCase "graph"] _ _ _ word).consNil noDirection.leaveOutLast

theorem takes_separator {ending rest : List Char} (h : Ends ending rest) :
    separatorRule.Takes table depth ending rest fun _ => .fields [] := by
  refine Rule.Misses.choice ?_ (takes_eol h).choice
  obtain rfl | ⟨rfl, rfl⟩ := h <;> exact fun _ => rfl

/-- A body of one statement. -/
theorem takes_body {text : List Char} {leaves : Nat → Fragment} (inked : Inked text)
    (h : (Rule.ref "statement").Takes grammar.rules (depth + 1) text [] leaves) :
    bodyRule.Takes grammar.rules (depth + 1) text [] fun offset =>
      .items (Fragment.round (.fields (leaves offset).toFields) ⟨String.ofList text, offset⟩) := by
  have inkedLine := inked.append ([] ++ ([] ++ []))
  have blank : blankLine.Misses grammar.rules (depth + 1) ([] ++ (text ++ ([] ++ ([] ++ [])))) :=
    inkedLine.misses_blankLine
  have noStatement : (Rule.sequence [ws, .ref "statement", separatorRule]).Misses grammar.rules
    (depth + 1) [] := fun _ => rfl
  have body := takes_lines_cons inked.ne_nil blank inkedLine.takes_ws h (takes_separator (.inr ⟨rfl, rfl⟩)) rfl
    (misses_blankLine_nil.or (noStatement.or misses_choice_nil)).many
  simpa [bodyRule, Fragment.toFields] using body

theorem exists_nodes {id s : String} (hid : IsName id) (h : ∀ c ∈ s.toList, c ≠ '\r' ∧ c ≠ '\n') :
    ∃ t span nodes node, grammar.parse (depth + 1) (String.ofList
        ("flowchart".toList ++ ('\n' :: (id.toList ++ '[' :: ((quote s).toList ++ [']']))))) = .ok t ∧
      t.filled? "direction" = none ∧
      t.list "statements" = [.mk span [("nodes", .tree nodes)]] ∧ nodes.getAll "member" = [.tree node] ∧
        texts node = [("id", id), ("shape_open", "["), ("label", quote s), ("shape_close", "]")] := by
  obtain ⟨nodes, node, taken, isNode⟩ := @takes_nodes grammar.rules depth id s hid h
  have statement := @Rule.Takes.ref _ _ _ _ _ _ "statement" rfl taken
  have body := (takes_body (hid.inked.append _) statement).capture "statements"
  have stop : endOfInput.Takes grammar.rules (depth + 1) [] [] fun _ => .empty := fun _ => rfl
  have bodyOn := body.consNil ((takes_ws_nil (by simp)).nilSkip rfl (stop.skipLast rfl))
  have fromHeader := takes_header.cons ((takes_separator (.inl rfl)).skip rfl bodyOn)
  have start : Inked
      ("flowchart".toList ++ ('\n' :: (id.toList ++ '[' :: ((quote s).toList ++ [']']))) ++ []) :=
    ⟨'f', by rfl, by decide⟩
  have whole := start.misses_blankLine.many.nilSkip rfl (start.takes_ws.nilSkip rfl fromHeader)
  exact ⟨_, _, _, _, @parse_of_takes _ _ _ grammar whole, rfl, rfl, isNode _⟩

theorem mentionOf_member {node : Tree} {id s : String} (hid : IsName id)
    (h : texts node = [("id", id), ("shape_open", "["), ("label", quote s), ("shape_close", "]")]) :
    mentionOf node = .ok { id, shape := some (.rectangle, s) } := by
  have name : (node.needText "id" : Reading Fallacy String) = .ok id :=
    needText_of_text? _ _ (text?_of_texts _ _ h rfl) hid.trim_eq
  have opening : node.text? "shape_open" = some "[" := text?_of_texts _ _ h rfl
  have closing : node.text? "shape_close" = some "]" := text?_of_texts _ _ h rfl
  have label : node.string? "label" = some s := string?_of_quoted (text?_of_texts _ _ h rfl)
  have noClass : node.filled? "css_class" = none := filled?_of_none _ _ (text?_of_texts _ _ h rfl)
  rw [mentionOf, opening, closing, label, noClass, name]
  rfl

theorem read_nodes {t : Tree} {span : Token} {nodes node : Tree} {id s : String} (hid : IsName id)
    (hdirection : t.filled? "direction" = none)
    (hlist : t.list "statements" = [.mk span [("nodes", .tree nodes)]])
    (hmember : nodes.getAll "member" = [.tree node])
    (h : texts node = [("id", id), ("shape_open", "["), ("label", quote s), ("shape_close", "]")]) :
    read t = .ok (({} : Chart).addNode { id, label := s }) := by
  have group : groupOf (.mk span [("nodes", .tree nodes)]) "nodes" =
      .ok [{ id, shape := some (.rectangle, s) }] := by
    refine bind_eq_ok.2 ⟨nodes, rfl, ?_⟩
    rw [hmember]
    show [node].mapM _ = _
    rw [List.mapM_cons, mentionOf_member hid h]
    rfl
  have body (depth : Nat) : readBody (depth + 1) (t.list "statements") =
      .ok [.nodes [{ id, shape := some (.rectangle, s) }]] := by
    have statement : (statements (readBody depth)).read (.mk span [("nodes", .tree nodes)]) =
        .ok (.nodes [{ id, shape := some (.rectangle, s) }]) := by
      refine (read_of_find? rfl).trans ?_
      dsimp only
      exact bind_eq_ok.2 ⟨_, group, rfl⟩
    rw [hlist]
    exact readAll_cons statement rfl
  obtain ⟨depth, height⟩ : ∃ depth, t.height = depth + 1 := by
    obtain ⟨span, fields⟩ := t
    exact ⟨_, rfl⟩
  rw [read, hdirection, height, body]
  rfl

theorem keeps_node {options : ParseOptions} {id s : String} (hid : IsName id)
    (h : ∀ c ∈ s.toList, c ≠ '\r' ∧ c ≠ '\n') : LabelPlace.flowchartNode.Keeps options id s := by
  obtain ⟨t, span, nodes, node, parsed, hdirection, hlist, hmember, isNode⟩ := exists_nodes hid h
  have one : (({} : Chart).addNode { id, label := s }).nodes = [{ id, label := s }] := Chart.nodes_addNode _ _
  exact LabelPlace.keeps_of_parse parsed (read_nodes hid hdirection hlist hmember isNode) nofun
    (by simp [labelOf?, LabelPlace.kind, Chart.node?_eq, one, Keyed.find?, Keyed.id])

end Flowchart

/-! ## Services -/

namespace Architecture

variable {table : List (String × Rule)} {depth : Nat}

theorem takes_service {id raw : String} {text : List Char} (hid : IsName id)
    (label : ClosesLabel table depth "label" raw text) :
    ∃ node : Nat → Tree,
      statementRule.Takes table depth ("service".toList ++ ([' '] ++ (id.toList ++ '[' :: text))) []
        (fun offset => .fields [("node", .tree (node offset))]) ∧
          ∀ offset, texts (node offset) = [("kind", "service"), ("id", id), ("label", raw)] := by
  have noIn : (Rule.sequence [ws1, keyword "in", ws1, .capture "parent" word]).Misses table depth [] :=
    fun _ => rfl
  have noIcon : (Rule.sequence [lit "(", .capture "icon" (textUntil ")\r\n"), lit ")"]).Misses table depth
      ('[' :: text ++ []) := fun _ => rfl
  have bracketed := Rule.Takes.nilSkip (takes_ws_nil (by simp)) rfl label.bracketed
  have title := bracketed.optional.consNil noIn.leaveOutLast
  have name : word.Takes table depth id.toList ('[' :: text ++ []) fun _ => .items [] := hid.takes_word _
  have kind : (Rule.choice [keyword "group", keyword "service", keyword "junction"]).Takes table depth
      "service".toList ([' '] ++ (id.toList ++ '[' :: text) ++ []) fun _ => .fields [] :=
    Rule.Misses.choice (fun _ => rfl) (Rule.Takes.choice (takes_keyword "service" (by simp [isWordChar])))
  have space : ws1.Takes table depth [' '] (id.toList ++ '[' :: text ++ []) fun _ => .items [] := by
    rw [List.append_nil]
    exact hid.takes_space _
  have named := (name.token rfl "id").cons (noIcon.leaveOut title)
  have whole := ((kind.token rfl "kind").cons (space.skip rfl named)).capture "node"
  have noTitle : (Peg.title "title").Misses table depth
      ("service".toList ++ ([' '] ++ (id.toList ++ '[' :: text)) ++ []) := fun _ => rfl
  have noCaption : (accessibility "acc_title" "acc_descr").Misses table depth
      ("service".toList ++ ([' '] ++ (id.toList ++ '[' :: text)) ++ []) := fun _ => rfl
  exact ⟨_, (noTitle.choice (noCaption.choice whole.choice)).labelled _, fun offset => rfl⟩

theorem exists_service {id raw : String} {text : List Char} (hid : IsName id)
    (label : ClosesLabel grammar.rules depth "label" raw text) :
    ∃ t span node,
      grammar.parse (depth + 1) (String.ofList ("architecture-beta".toList ++ ['\n'] ++
        ("service".toList ++ ([' '] ++ (id.toList ++ '[' :: text))))) = .ok t ∧
      t.list "statements" = [.mk span [("node", .tree node)]] ∧
      texts node = [("kind", "service"), ("id", id), ("label", raw)] := by
  obtain ⟨node, taken, isNode⟩ := takes_service hid label
  have statement := @Rule.Takes.ref _ _ _ _ _ _ "statement" rfl taken
  have inked : Inked ("service".toList ++ ([' '] ++ (id.toList ++ '[' :: text))) := ⟨'s', by rfl, by decide⟩
  obtain ⟨t, span, offset, parsed, statements⟩ := exists_round rfl ⟨'a', by rfl, by decide⟩
    (takes_headline "architecture-beta" _).choice rfl inked inked.takes_ws statement fun _ => rfl
  exact ⟨t, span, node offset, parsed, statements, isNode offset⟩

theorem read_service {t : Tree} {span : Token} {node : Tree} {id s : String} (hid : IsName id)
    (hlist : t.list "statements" = [.mk span [("node", .tree node)]])
    (h : texts node = [("kind", "service"), ("id", id), ("label", quote s)]) :
    read t = .ok { nodes := [{ id, role := .service, title := some s }] } := by
  have kind : (node.needText "kind" : Reading Fallacy String) = .ok "service" :=
    needText_of_text? _ _ (text?_of_texts _ _ h rfl) (by decide)
  have name : (node.needText "id" : Reading Fallacy String) = .ok id :=
    needText_of_text? _ _ (text?_of_texts _ _ h rfl) hid.trim_eq
  have title : node.string? "label" = some s := string?_of_quoted (text?_of_texts _ _ h rfl)
  have icon : node.filled? "icon" = none := filled?_of_none _ _ (text?_of_texts _ _ h rfl)
  have parent : node.filled? "parent" = none := filled?_of_none _ _ (text?_of_texts _ _ h rfl)
  have statement : statements.read (.mk span [("node", .tree node)]) =
      .ok (.node { id, role := .service, title := some s }) := by
    refine (read_of_find? rfl).trans ?_
    dsimp only
    refine bind_eq_ok.2 ⟨node, rfl, ?_⟩
    refine bind_eq_ok.2 ⟨_, kind, bind_eq_ok.2 ⟨.service, rfl, bind_eq_ok.2 ⟨id, name, ?_⟩⟩⟩
    rw [title, icon, parent]
    rfl
  rw [read, hlist, readPlaced_singleton statement]
  rfl

theorem keeps_service {options : ParseOptions} {id s : String} (hid : IsName id)
    (h : ∀ c ∈ s.toList, c ≠ '\r' ∧ c ≠ '\n') (hfree : ']' ∉ s.toList) :
    LabelPlace.architectureService.Keeps options id s := by
  obtain ⟨t, span, node, parsed, hlist, isNode⟩ := exists_service hid (closesLabel_quote h hfree _)
  exact LabelPlace.keeps_of_parse parsed (read_service hid hlist isNode) nofun
    (by simp [labelOf?, LabelPlace.kind, Diagram.node?])

/-- Whether the label, if the field is one, holds no closing bracket. -/
def isBracketFree (field : String) (node : DiagramText.Node) : Bool :=
  field != "label" || !node.text.toList.contains ']'

/-- Whether the rule takes a run of characters without a closing bracket. -/
def stopsAtBracket : Rule → Bool
  | .quiet (.repeated (.chars set) 0 none) => !set.contains ']'
  | _ => false

theorem isBracketFree_of_parse {input : String} {t : Tree} (h : grammar.parse depth input = .ok t) :
    t.allFields isBracketFree = true := by
  have checked : grammar.allCaptures (fun field r => field != "label" || stopsAtBracket r) = true := by decide
  refine allFields_of_parse checked ?_ h
  intro field r node hr fills
  rw [Bool.or_eq_true] at hr
  rw [isBracketFree, Bool.or_eq_true]
  refine hr.imp_right fun stops => ?_
  unfold stopsAtBracket at stops
  split at stops
  · rename_i set
    have free := not_mem_of_fills (by simpa using stops) fills
    simpa using free
  · cases stops

/-- Whether the title of a node holds no closing bracket. -/
def Item.IsBracketFree (item : Item) : Prop := ∀ title ∈ item.title, ']' ∉ title.toList

/-- The title of a node that is read is the label of its tree. -/
theorem exists_node_of_read {t : Tree} {item : Item} (e : statements.read t = .ok (.node item)) :
    ∃ node, t.get? "node" = some (.tree node) ∧ item.title = node.string? "label" := by
  obtain ⟨entry, hentry, -, he⟩ := exists_shape e
  simp only [Captions.shapes, Captions.shapes.accessibleShapes, List.cons_append, List.nil_append,
    List.mem_cons, List.not_mem_nil, or_false] at hentry
  have noCaption {x : Reading Fallacy String} {wrap : String → Caption}
      (e : (do return .caption (wrap (← x)) : Reading Fallacy Statement) = .ok (.node item)) : False := by
    obtain ⟨_, -, e⟩ := bind_eq_ok.1 e
    cases e
  obtain rfl | rfl | rfl | rfl | rfl := hentry
  · exact (noCaption he).elim
  · exact (noCaption he).elim
  · exact (noCaption he).elim
  · obtain ⟨node, hnode, he⟩ := bind_eq_ok.1 he
    obtain ⟨word, -, he⟩ := bind_eq_ok.1 he
    obtain ⟨role, -, he⟩ := bind_eq_ok.1 he
    obtain ⟨id, -, he⟩ := bind_eq_ok.1 he
    obtain ⟨n, hn, tree⟩ := Option.bind_eq_some_iff.1 ((needGroup_eq_ok _ _).1 hnode)
    cases n <;> cases tree
    refine ⟨node, hn, ?_⟩
    split at he
    · cases he
    · cases he
      rfl
  · obtain ⟨edge, -, he⟩ := bind_eq_ok.1 he
    obtain ⟨source, -, he⟩ := bind_eq_ok.1 he
    obtain ⟨target, -, he⟩ := bind_eq_ok.1 he
    cases he

theorem isBracketFree_of_read {t : Tree} {item : Item} (h : t.allFields Architecture.isBracketFree = true)
    (e : statements.read t = .ok (.node item)) : item.IsBracketFree := by
  obtain ⟨node, hnode, written⟩ := exists_node_of_read e
  intro title htitle mem
  rw [written] at htitle
  obtain ⟨raw, hraw, rfl⟩ := exists_text_of_string? _ _ htitle
  obtain ⟨label, hlabel, rfl⟩ := Option.map_eq_some_iff.1 hraw
  obtain mem | mem := mem_of_mem_unquote mem
  · have isBracketFree := (allFields_get? (allFields_get? h hnode).2 hlabel).1
    rw [Architecture.isBracketFree] at isBracketFree
    rw [trim, String.toList_ofList] at mem
    simp [Chars.mem_of_mem_trim mem] at isBracketFree
  · revert mem
    decide

theorem mem_nodes_of_foldlM {placed : List (Nat × Statement)} {d d' : Diagram}
    (e : placed.foldlM Diagram.apply d = .ok d') :
    ∀ item ∈ d'.nodes, item ∈ d.nodes ∨ ∃ offset, (offset, .node item) ∈ placed := by
  induction placed generalizing d with
  | nil =>
    rw [List.foldlM_nil, pure_eq_ok] at e
    exact e ▸ fun item h => .inl h
  | cons first placed ih =>
    rw [List.foldlM_cons, bind_eq_ok] at e
    obtain ⟨next, hnext, e⟩ := e
    intro item hitem
    obtain h | ⟨offset, h⟩ := ih e item hitem
    · obtain ⟨offset, statement⟩ := first
      cases statement with
      | node node =>
        simp only [Diagram.apply, orComplain_eq_ok, Diagram.addNode?, Option.ite_none_left_eq_some,
          Option.some.injEq] at hnext
        obtain ⟨-, rfl⟩ := hnext
        obtain h | h := List.mem_append.1 h
        · exact .inl h
        · obtain rfl := List.mem_singleton.1 h
          exact .inr ⟨offset, List.mem_cons_self⟩
      | _ =>
        cases hnext
        exact .inl h
    · exact .inr ⟨offset, List.mem_cons_of_mem _ h⟩

theorem isBracketFree_nodes {t : Tree} {d : Diagram} (h : t.allFields isBracketFree = true) (e : read t = .ok d) :
    ∀ item ∈ d.nodes, item.IsBracketFree := by
  simp only [read, bind_eq_ok] at e
  obtain ⟨placed, hplaced, declared, hdeclared, -, -, hedges⟩ := e
  have same : d.nodes = declared.nodes :=
    foldlM_invariant (P := fun d => d.nodes = declared.nodes)
      (fun _ _ _ h e => (Diagram.nodes_applyEdge e).trans h) rfl hedges
  intro item hitem
  rw [same] at hitem
  obtain hnil | ⟨offset, hstatement⟩ := mem_nodes_of_foldlM hdeclared item hitem
  · cases hnil
  · obtain ⟨round, hround, e⟩ := exists_of_mem_mapM hplaced _ hstatement
    obtain ⟨statement, hread, e⟩ := bind_eq_ok.1 e
    cases e
    exact isBracketFree_of_read (allFields_of_mem_list h hround) hread

/-- The title of a service that is accepted holds no closing bracket. -/
theorem bracket_not_mem {options : ParseOptions} {id s : String}
    (h : LabelPlace.architectureService.Keeps options id s) : ']' ∉ s.toList := by
  obtain ⟨m, accepted, label⟩ := h
  obtain ⟨t, content, parsed, reads, checked⟩ := parseAs_eq_ok.1 accepted
  obtain rfl := eq_of_checkedModel checked
  obtain ⟨item, hitem, title⟩ := Option.bind_eq_some_iff.1 label
  exact isBracketFree_nodes (isBracketFree_of_parse parsed) reads item (List.mem_of_find?_eq_some hitem) s title

end Architecture

end DiagramText
