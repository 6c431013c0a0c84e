import DiagramText.Proofs.Indexed
import DiagramText.Proofs.Parse
import DiagramText.Proofs.Peg.Keywords
import DiagramText.Proofs.Shapes

/-!
# Documents of one association

The document of an association (`Association.document`) has one line behind its header, which the rule of
relationships takes (`takes_relation`). Behind a keyword that the line begins with comes the rest of a name or
the line of the association (`Follows`), so the rules of other statements miss it. Only a title takes whatever
follows its keyword: the association is read back unless its line begins with that
(`Association.parseAs_iff`).
-/

namespace DiagramText.ClassDiagram

open Peg Reading

/-! ## Names and associations -/

/-- Whether a text can be the name of a class. -/
def IsName (id : String) : Prop :=
  ∃ c cs, id.toList = c :: cs ∧ isIdentStart c = true ∧ ∀ d ∈ cs, isIdentChar d = true

/-- An association as it is written on a line. -/
structure Association where
  source : String
  target : String
  isSource : IsName source
  isTarget : IsName target

namespace Association

/-- The document of the association. -/
def document (r : Association) : String := "classDiagram\n" ++ (r.source ++ (" --> " ++ r.target))

/-- The classes of the association. -/
def classes (r : Association) : List Class :=
  (if r.source = r.target then [r.source] else [r.source, r.target]).map fun id => { id }

theorem nodup_classes (r : Association) : (Keyed.ids r.classes).Nodup := by
  by_cases same : r.source = r.target <;> simp [Keyed.ids, Keyed.id, classes, same]

/-- The diagram of the association. -/
def diagram (r : Association) : Diagram where
  roster := .of r.classes r.nodup_classes
  relationships := [{ source := r.source, target := r.target, kind := .association }]

/-- Whether the line begins with the keyword of a title. -/
def overtaken (r : Association) : Bool := hasKeyword "title" (r.source.toList ++ [' '])

end Association

namespace IsName

variable {id : String} {table : List (String × Rule)} {depth : Nat} {rest : List Char}

theorem ne_nil (h : IsName id) : id.toList ≠ [] := by
  obtain ⟨c, cs, e, -⟩ := h
  exact e ▸ List.cons_ne_nil c cs

theorem plain (h : IsName id) : ∀ c ∈ id.toList, isIdentChar c = true := by
  obtain ⟨c, cs, e, start, plain⟩ := h
  intro d hd
  rw [e] at hd
  obtain rfl | hd := List.mem_cons.1 hd
  · simp only [isIdentStart, isIdentChar, Char.isAlphanum, Bool.or_eq_true] at start ⊢
    tauto
  · exact plain d hd

theorem not_isBlank (h : IsName id) : ∀ c ∈ id.toList, isBlank c = false :=
  fun c hc => Chars.not_isBlank_of_class (by decide) (h.plain c hc)

theorem trim_eq (h : IsName id) : trim id = id := by
  rw [trim, Chars.trim_word h.ne_nil h.not_isBlank, String.ofList_toList]

/-- A name begins with none of the marks that start no name. -/
theorem exists_head (h : IsName id) (rest : List Char) :
    ∃ c ∈ (id.toList ++ rest).head?, isIdentStart c = true := by
  obtain ⟨c, cs, e, start, -⟩ := h
  exact ⟨c, by rw [e]; rfl, start⟩

theorem head_ne (h : IsName id) {mark : Char} (hmark : isIdentStart mark = false) (rest : List Char) :
    ∀ c ∈ (id.toList ++ rest).head?, c ≠ mark := by
  obtain ⟨d, hd, start⟩ := h.exists_head rest
  rintro c hc rfl
  obtain rfl := Option.some.inj (hc.symm.trans hd)
  rw [start] at hmark
  cases hmark

theorem inked (h : IsName id) (rest : List Char) : Inked (id.toList ++ rest) := by
  obtain ⟨c, hc, start⟩ := h.exists_head rest
  have others : ∀ mark ∈ [' ', '\t', '\r', '\n', '%'], isIdentStart mark = false := by simp [isIdentStart]
  refine ⟨c, hc, fun hmem => ?_⟩
  rw [others c hmem] at start
  cases start

theorem takes (h : IsName id) (hstop : ∀ c ∈ rest.head?, isIdentChar c = false) :
    nameRule.Takes table depth id.toList rest fun _ => .fields [] := by
  obtain ⟨c, cs, e, start, plain⟩ := h
  have behind : (many (.chars (.satisfying isIdentChar "identifier character"))).Takes table depth cs rest
      fun _ => .items [] := takes_many_chars plain hstop
  have first : (Rule.chars (.satisfying isIdentStart "letter or '_'")).Takes table depth [c] (cs ++ rest)
      fun _ => .empty := by
    refine takes_char ?_ _
    exact start
  rw [e]
  exact ((first.skip rfl (behind.skipLast rfl)).labelled "identifier").labelled "class name"

end IsName

/-- A text that starts no name. -/
theorem misses_name {table : List (String × Rule)} {depth : Nat} {text : List Char}
    (h : ∀ c ∈ text.head?, isIdentStart c = false) : nameRule.Misses table depth text := by
  have first : (Rule.chars (.satisfying isIdentStart "letter or '_'")).Misses table depth text := misses_char h
  exact (first.sequence.labelled "identifier").labelled "class name"

/-! ## The line of an association -/

section

variable {table : List (String × Rule)} {depth : Nat} {rules : List Rule} {rest : List Char}

theorem misses_generic (h : ∀ c ∈ rest.head?, c ≠ '~') : genericRule.Misses table depth rest := by
  have mark : (lit "~").Misses table depth rest := by
    refine misses_lit ?_
    rintro ⟨more, rfl⟩
    exact h '~' rfl rfl
  exact mark.sequence

/-- The line between two classes with an arrow on the right. -/
theorem takes_operator (rest : List Char) : ∃ node : Nat → Tree,
    operatorRule.Takes table depth "-->".toList rest (fun offset => .fields [("operator", .tree (node offset))]) ∧
      ∀ offset, (Node.tree (node offset)).text = "-->" ∧
        texts (node offset) = [("line", "--"), ("right_end", ">")] := by
  have noLeft : (Rule.capture "left_end" (.choice [lit "<|", lit "*", lit "o", lit "<", lit "()"])).Misses
      table depth ("-->".toList ++ rest) := fun _ => rfl
  have line : (Rule.choice [lit "--", lit ".."]).Takes table depth "--".toList (">".toList ++ rest)
      fun _ => .empty := (takes_lit "--" _).choice
  have right : (Rule.choice
      [lit "|>", lit "*", .sequence [lit "o", .notAhead word], lit ">", lit "()"]).Takes table depth ">".toList rest
        fun _ => .empty :=
    Rule.Misses.choice (fun _ => rfl) <| Rule.Misses.choice (fun _ => rfl) <|
      Rule.Misses.choice (fun _ => rfl) (takes_lit ">" rest).choice
  have whole := noLeft.leaveOut ((line.token rfl "line").cons (right.token rfl "right_end").optional.last)
  exact ⟨_, (whole.capture "operator").labelled _, fun _ => ⟨rfl, rfl⟩⟩

/-- The line of an association. -/
def Association.line (r : Association) : List Char :=
  r.source.toList ++ ([' '] ++ ("-->".toList ++ ([' '] ++ r.target.toList)))

theorem takes_relation (r : Association) : ∃ node operator : Nat → Tree,
    relationRule.Takes table depth r.line [] (fun offset => .fields [("relation", .tree (node offset))]) ∧
      ∀ offset, (node offset).get? "operator" = some (.tree (operator offset)) ∧
        texts (operator offset) = [("line", "--"), ("right_end", ">")] ∧
        texts (node offset) = [("from", r.source), ("operator", "-->"), ("to", r.target)] := by
  have noLabel : (Rule.sequence [ws, lit ":", ws, .capture "label" restOfLine]).Misses table depth [] :=
    fun _ => rfl
  have noGeneric : genericRule.Misses table depth [] := misses_generic nofun
  have target : nameRule.Takes table depth r.target.toList [] fun _ => .fields [] := r.isTarget.takes nofun
  have noCardinality : (Rule.sequence [.capture "to_cardinality" quotedString, ws]).Misses table depth
      (r.target.toList ++ []) := ((misses_quotedString (r.isTarget.head_ne (by decide) [])).capture _).sequence
  have fromTarget := noCardinality.leaveOut
    ((target.token rfl "to").consNil (noGeneric.leaveOut noLabel.leaveOutLast))
  have blankTarget : ∀ c ∈ (r.target.toList ++ []).head?, c ≠ ' ' ∧ c ≠ '\t' :=
    fun c hc => ⟨r.isTarget.head_ne (by decide) [] c hc, r.isTarget.head_ne (by decide) [] c hc⟩
  have fromGap := (takes_blank blankTarget).skip rfl fromTarget
  obtain ⟨operator, isOperator, operatorTexts⟩ := @takes_operator table depth ([' '] ++ r.target.toList ++ [])
  have noCardinality : (Rule.sequence [.capture "from_cardinality" quotedString, ws]).Misses table depth
      ("-->".toList ++ ([' '] ++ r.target.toList) ++ []) :=
    ((misses_quotedString (by rintro c ⟨⟩; decide)).capture _).sequence
  have fromOperator := noCardinality.leaveOut (isOperator.cons fromGap)
  have fromBlank := (takes_blank (by rintro c ⟨⟩; decide)).skip rfl fromOperator
  have noGeneric : genericRule.Misses table depth
      ([' '] ++ ("-->".toList ++ ([' '] ++ r.target.toList)) ++ []) := misses_generic (by rintro c ⟨⟩; decide)
  have source : nameRule.Takes table depth r.source.toList
      ([' '] ++ ("-->".toList ++ ([' '] ++ r.target.toList)) ++ []) fun _ => .fields [] :=
    r.isSource.takes (by rintro c ⟨⟩; decide)
  have whole := (source.token rfl "from").cons (noGeneric.leaveOut fromBlank)
  refine ⟨_, _, whole.capture "relation", fun offset => ⟨rfl, (operatorTexts _).2, ?_⟩⟩
  rw [texts]
  simp only [Tree.fields, Fragment.toFields, List.cons_append, List.nil_append, List.map_cons, List.map_nil,
    (operatorTexts _).1]
  rfl

end

/-- The line of an association is one line. -/
theorem Association.inLine (r : Association) : ∀ c ∈ r.line, c ≠ '\r' ∧ c ≠ '\n' := by
  have ofName {id : String} (h : IsName id) : ∀ c ∈ id.toList, c ≠ '\r' ∧ c ≠ '\n' := by
    intro c hc
    have plain := h.not_isBlank c hc
    constructor <;> rintro rfl <;> cases plain
  intro c hc
  simp only [line, List.mem_append] at hc
  obtain hc | hc | hc | hc | hc := hc
  · exact ofName r.isSource c hc
  · obtain rfl := List.mem_singleton.1 hc
    decide
  · revert c
    simp
  · obtain rfl := List.mem_singleton.1 hc
    decide
  · exact ofName r.isTarget c hc

/-! ## The other statements -/

/-- Whether a text goes on with the rest of a name or with a blank and a line. -/
def Follows (text : List Char) : Prop :=
  (∃ c ∈ text.head?, isIdentChar c = true) ∨ ∃ more, text = ' ' :: '-' :: more

section

variable {table : List (String × Rule)} {depth : Nat} {rules : List Rule} {r : Association} {text rest : List Char}

namespace Follows

theorem head_ne (h : Follows text) {mark : Char} (hmark : isIdentChar mark = false ∧ mark ≠ ' ') :
    ∀ c ∈ text.head?, c ≠ mark := by
  obtain ⟨d, hd, plain⟩ | ⟨more, rfl⟩ := h
  · rintro c hc rfl
    obtain rfl := Option.some.inj (hc.symm.trans hd)
    rw [plain] at hmark
    cases hmark.1
  · rintro c ⟨⟩
    exact hmark.2.symm

theorem misses_ws1 (h : Follows text) (hs : ∀ more, (Rule.sequence rules).Misses table depth ('-' :: more)) :
    (Rule.sequence (ws1 :: rules)).Misses table depth text := by
  obtain ⟨d, hd, plain⟩ | ⟨more, rfl⟩ := h
  · refine (Peg.misses_ws1 fun c hc => ?_).sequence
    obtain rfl := Option.some.inj (hc.symm.trans hd)
    constructor <;> rintro rfl <;> cases plain
  · exact (takes_space (by rintro c ⟨⟩; decide)).misses (hs more)

theorem misses_ws (h : Follows text)
    (hs : ∀ text, (∀ c ∈ text.head?, c = '-' ∨ isIdentChar c = true) →
      (Rule.sequence rules).Misses table depth text) :
    (Rule.sequence (ws :: rules)).Misses table depth text := by
  obtain ⟨d, hd, plain⟩ | ⟨more, rfl⟩ := h
  · have isPlain : ∀ c ∈ text.head?, isIdentChar c = true := by
      intro c hc
      obtain rfl := Option.some.inj (hc.symm.trans hd)
      exact plain
    refine (takes_ws_nil fun c hc => ?_).nil_misses (hs text fun c hc => .inr (isPlain c hc))
    have := isPlain c hc
    constructor <;> rintro rfl <;> cases this
  · exact (takes_blank (by rintro c ⟨⟩; decide)).misses (hs _ (by rintro c ⟨⟩; exact .inl rfl))

end Follows

theorem follows (e : r.line = text ++ rest) (htext : ' ' ∉ text) : Follows rest := by
  obtain ⟨behind, hname, rfl⟩ := exists_append_of_mark htext e
  cases behind with
  | nil => exact .inr ⟨_, rfl⟩
  | cons c behind => exact .inl ⟨c, rfl, r.isSource.plain c (hname ▸ List.mem_append_right _ List.mem_cons_self)⟩

/-- A statement that starts with a keyword. -/
theorem misses_keyworded {word : String} (plain : ' ' ∉ word.toList)
    (hs : ∀ rest, Follows rest → (Rule.sequence rules).Misses table depth rest) :
    (Rule.sequence (keyword word :: rules)).Misses table depth r.line := by
  refine misses_headed fun found rest (hf : found = _) e => hs rest (follows e ?_)
  rwa [hf]

/-- A statement that starts with a keyword and a blank, behind which no line of an association stands. -/
theorem misses_spaced {word : String} (plain : ' ' ∉ word.toList)
    (hs : ∀ more, (Rule.sequence rules).Misses table depth ('-' :: more)) :
    (Rule.sequence (keyword word :: ws1 :: rules)).Misses table depth r.line :=
  misses_keyworded plain fun _ hrest => hrest.misses_ws1 hs

/-- A statement that names something behind its keyword. -/
theorem misses_naming {word field : String} (plain : ' ' ∉ word.toList) :
    (Rule.sequence (keyword word :: ws1 :: .capture field nameRule :: rules)).Misses table depth r.line :=
  misses_spaced plain fun _ => ((misses_name (by rintro c ⟨⟩; decide)).capture field).sequence

theorem misses_accessibility : (accessibility "acc_title" "acc_descr").Misses table depth r.line := by
  have mark {word : String} {mark : Char} (hmark : word.toList = [mark] ∧ isIdentChar mark = false ∧ mark ≠ '-')
      {text : List Char} (h : ∀ c ∈ text.head?, c = '-' ∨ isIdentChar c = true) :
      (lit word).Misses table depth text := by
    refine misses_lit ?_
    rw [hmark.1]
    rintro ⟨more, rfl⟩
    obtain hline | plain := h mark rfl
    · exact hmark.2.2 hline
    · rw [hmark.2.1] at plain
      cases plain
  have noTitle {rules : List Rule} :
      (Rule.sequence (keyword "accTitle" :: ws :: lit ":" :: rules)).Misses table depth r.line :=
    misses_keyworded (by decide) fun _ hrest => hrest.misses_ws fun _ h =>
      (@mark _ ':' ⟨rfl, by decide⟩ _ h).sequence
  have noDescription : (Rule.sequence [keyword "accDescr", ws,
      .choice
        [.sequence [lit "\x7b", .capture "acc_descr" (textUntil "\x7d"), lit "\x7d"],
          .sequence [lit ":", ws, .capture "acc_descr" restOfLine]]]).Misses table depth r.line := by
    refine misses_keyworded (by decide) fun _ hrest => hrest.misses_ws fun text h => ?_
    have brace : (lit "\x7b").Misses table depth text := @mark _ '\x7b' ⟨rfl, by decide⟩ _ h
    have colon : (lit ":").Misses table depth text := @mark _ ':' ⟨rfl, by decide⟩ _ h
    exact (brace.sequence.or (colon.sequence.or misses_choice_nil)).sequence
  exact noTitle.or (noDescription.or misses_choice_nil)

theorem misses_click : clickRule.Misses table depth r.line :=
  ((misses_naming (by decide)).or ((misses_naming (by decide)).or
    ((misses_naming (by decide)).or misses_choice_nil))).capture "click"

/-- The statements that are tried first need a name or a quoted text behind their keyword. -/
theorem takes_later {taken rest : List Char} {leaves : Nat → Fragment} (e : taken ++ rest = r.line)
    (hs : ∀ others, (Rule.choice (title "title" :: accessibility "acc_title" "acc_descr" :: relationRule ::
      others)).Takes table depth taken rest leaves) : statementRule.Takes table depth taken rest leaves := by
  have quoted (more : List Char) : quotedString.Misses table depth ('-' :: more) :=
    misses_quotedString (by rintro c ⟨⟩; decide)
  have noNamespace : namespaceRule.Misses table depth r.line := (misses_naming (by decide)).capture "namespace"
  have noClass : classRule.Misses table depth r.line := (misses_naming (by decide)).capture "class"
  have noStereotype : annotationRule.Misses table depth r.line := by
    have mark : (lit "<<").Misses table depth r.line := by
      refine misses_lit ?_
      rintro ⟨more, e⟩
      exact r.isSource.head_ne (by decide) _ '<' (by rw [← Association.line, ← e]; rfl) rfl
    exact mark.sequence
  have noNote : (Rule.capture "note" (.sequence
      [keyword "note", ws1,
        .optional (.sequence [keyword "for", ws1, .capture "class_id" nameRule, ws1]),
        .capture "text" quotedString])).Misses table depth r.line := by
    refine (misses_spaced (by decide) fun more => ?_).capture "note"
    have noClass : (Rule.sequence [keyword "for", ws1, .capture "class_id" nameRule, ws1]).Misses table depth
        ('-' :: more) := (misses_keyword rfl).sequence
    exact noClass.optional.nil_misses ((quoted more).capture "text").sequence
  have noDirection : (Rule.sequence
      [keyword "direction", ws1,
        .capture "direction" (.labelled "direction"
          (.choice [lit "TB", lit "TD", lit "BT", lit "LR", lit "RL"]))]).Misses table depth r.line :=
    misses_spaced (by decide) fun _ _ => rfl
  have noStyleClass : (Rule.capture "css_class_statement" (.sequence
      [keyword "cssClass", ws1, .capture "targets" quotedString, ws1,
        .capture "css_class" word])).Misses table depth r.line :=
    (misses_spaced (by decide) fun more => ((quoted more).capture "targets").sequence).capture _
  have noStyle : (Rule.capture "style_statement" (.sequence
      [keyword "style", ws1, .capture "class_id" nameRule, ws1,
        .capture "style" (text1Until "\r\n" "style definition")])).Misses table depth r.line :=
    (misses_naming (by decide)).capture _
  rw [← e] at noNamespace noClass noStereotype noNote noDirection noStyleClass noStyle
  have noClick : clickRule.Misses table depth (taken ++ rest) := e ▸ misses_click
  exact (noNamespace.choice <| noClass.choice <| (noStereotype.sequence.capture "annotate").choice <|
    noNote.choice <| noClick.choice <| noDirection.choice <| noStyleClass.choice <| noStyle.choice <|
    hs _).labelled "statement"

theorem takes_association (free : hasKeyword "title" r.line = false) : ∃ node operator : Nat → Tree,
    statementRule.Takes table depth r.line [] (fun offset => .fields [("relation", .tree (node offset))]) ∧
      ∀ offset, (node offset).get? "operator" = some (.tree (operator offset)) ∧
        texts (operator offset) = [("line", "--"), ("right_end", ">")] ∧
        texts (node offset) = [("from", r.source), ("operator", "-->"), ("to", r.target)] := by
  obtain ⟨node, operator, relation, isRelation⟩ := @takes_relation table depth r
  have noTitle : (title "title").Misses table depth (r.line ++ []) := by
    rw [List.append_nil]
    exact (misses_keyword free).sequence
  have noCaption : (accessibility "acc_title" "acc_descr").Misses table depth (r.line ++ []) := by
    rw [List.append_nil]
    exact misses_accessibility
  exact ⟨node, operator,
    takes_later (List.append_nil _) fun _ => noTitle.choice <| noCaption.choice relation.choice, isRelation⟩

/-- The rest of the line becomes a title. -/
theorem takes_title (taken : hasKeyword "title" r.line = true) : ∃ caption : Nat → Node,
    statementRule.Takes table depth r.line [] fun offset => .fields [("title", caption offset)] := by
  obtain ⟨rest, e, stop⟩ := hasKeyword_iff.1 taken
  obtain ⟨caption, title⟩ := @Peg.takes_title table depth rest "title" stop
    fun c hc => r.inLine c (e ▸ List.mem_append_right _ hc)
  rw [← e] at title
  exact ⟨caption, takes_later (List.append_nil _) fun _ => title.choice⟩

end

/-! ## Documents -/

namespace Association

variable (r : Association)

theorem overtaken_line : hasKeyword "title" r.line = r.overtaken := hasKeyword_of_mark (by decide)

theorem sourceOf_document (options : ParseOptions) :
    sourceOf options r.document = String.ofList ("classDiagram".toList ++ (['\n'] ++ r.line)) := by
  have whole : r.document = String.ofList ("classDiagram".toList ++ (['\n'] ++ r.line)) := by
    simp [document, line, ← String.toList_inj]
  rw [sourceOf, whole, String.toList_ofList]
  by_cases htrim : options.trimTrailing = true
  · rw [if_pos htrim]
    have trimmed := Chars.trimEnd_append_word ("classDiagram".toList ++ (['\n'] ++ (r.source.toList ++
      ([' '] ++ ("-->".toList ++ [' ']))))) r.isTarget.ne_nil r.isTarget.not_isBlank []
    simp only [Chars.trimEnd_nil, List.append_nil, List.append_assoc] at trimmed
    rw [line, trimmed]
  · rw [if_neg htrim]

/-- The document has one statement, which is what the statement rule takes of the line. -/
theorem exists_statement {depth : Nat} {field : String} {node : Nat → Node}
    (h : statementRule.Takes grammar.rules depth r.line [] fun offset => .fields [(field, node offset)]) :
    ∃ t span offset,
      grammar.parse (depth + 1) (String.ofList ("classDiagram".toList ++ (['\n'] ++ r.line))) = .ok t ∧
      t.list "statements" = [.mk span [(field, node offset)]] := by
  have inked : Inked r.line := r.isSource.inked _
  have statement := @Rule.Takes.ref _ _ _ _ _ _ "statement" rfl h
  have otherHeader : (keyword "classDiagram-v2").Misses grammar.rules (depth + 1)
      ("classDiagram".toList ++ (['\n'] ++ r.line)) := misses_keyword rfl
  obtain ⟨t, span, offset, parsed, statements⟩ := exists_round rfl ⟨'c', by rfl, by decide⟩
    (otherHeader.choice (takes_headline "classDiagram" _).choice) rfl inked inked.takes_ws statement fun _ => rfl
  rw [List.append_assoc] at parsed
  exact ⟨t, span, offset, parsed, statements⟩

/-- What is read from a document of one statement. -/
theorem read_of_statement {t tree : Tree} {statement : Statement} (hlist : t.list "statements" = [tree])
    (h : ∀ depth, (statements (readBody depth)).read tree = .ok statement) :
    read t = .ok (Diagram.apply {} statement) := by
  obtain ⟨depth, height⟩ : ∃ depth, t.height = depth + 1 := by
    obtain ⟨span, fields⟩ := t
    exact ⟨_, rfl⟩
  have body : readBody (depth + 1) [tree] = .ok [statement] := readAll_cons (h depth) rfl
  rw [read, height, hlist, body]
  rfl

theorem apply_relationship : Diagram.apply {} (.relationship ⟨r.source, r.target, .association, false, none, none,
    none⟩) = r.diagram := by
  have roster : ((∅ : Roster Class).ensure { id := r.source }).ensure { id := r.target } =
      .of r.classes r.nodup_classes := by
    refine Roster.ext ?_
    rw [Roster.entries_ensure, Roster.entries_ensure, Roster.entries_of, classes]
    by_cases same : r.source = r.target <;>
      simp [Keyed.ensure, Keyed.add, Keyed.has, Keyed.id, Keyed.update, same]
  rw [Diagram.apply.eq_def, diagram, ← roster]
  rfl

theorem read_relation {t node operator : Tree} {span : Token}
    (hlist : t.list "statements" = [.mk span [("relation", .tree node)]])
    (isOperator : node.get? "operator" = some (.tree operator))
    (operatorTexts : texts operator = [("line", "--"), ("right_end", ">")])
    (h : texts node = [("from", r.source), ("operator", "-->"), ("to", r.target)]) : read t = .ok r.diagram := by
  have source : (node.needText "from" : Reading Fallacy String) = .ok r.source :=
    needText_of_text? _ _ (text?_of_texts _ _ h rfl) r.isSource.trim_eq
  have target : (node.needText "to" : Reading Fallacy String) = .ok r.target :=
    needText_of_text? _ _ (text?_of_texts _ _ h rfl) r.isTarget.trim_eq
  have line : (operator.needText "line" : Reading Fallacy String) = .ok "--" :=
    needText_of_text? _ _ (text?_of_texts _ _ operatorTexts rfl) (by decide)
  have left : operator.text? "left_end" = none := text?_of_texts _ _ operatorTexts rfl
  have right : operator.text? "right_end" = some ">" := text?_of_texts _ _ operatorTexts rfl
  rw [← r.apply_relationship]
  refine read_of_statement hlist fun depth => (Shapes.read_of_first 1 rfl rfl).trans ?_
  have absent {field : String} (hfield : [("from", r.source), ("operator", "-->"), ("to", r.target)].lookup field =
      none) : node.string? field = none := by
    rw [Tree.string?, filled?_of_none _ _ (text?_of_texts _ _ h hfield), Option.map_none]
  have relationship : relationshipOf node = .ok ⟨r.source, r.target, .association, false, none, none, none⟩ := by
    have group : (node.needGroup "operator" : Reading Fallacy Tree) = .ok operator :=
      (needGroup_eq_ok _ _).2 (by rw [Tree.tree?, isOperator]; rfl)
    refine bind_eq_ok.2 ⟨_, group, bind_eq_ok.2 ⟨_, line, bind_eq_ok.2 ⟨_, source, bind_eq_ok.2 ⟨_, target, ?_⟩⟩⟩⟩
    rw [left, right, absent rfl, absent rfl, absent rfl]
    rfl
  exact bind_eq_ok.2 ⟨node, rfl, bind_eq_ok.2 ⟨_, relationship, rfl⟩⟩

/-- A title relates no classes. -/
theorem read_title {t : Tree} {span : Token} {node : Node} {d : Diagram}
    (hlist : t.list "statements" = [.mk span [("title", node)]]) (h : read t = .ok d) : d.relationships = [] := by
  have caption (depth : Nat) : (statements (readBody depth)).read (.mk span [("title", node)]) =
      .ok (.caption (.title (trim node.text))) := (Shapes.read_of_first 1 rfl rfl).trans rfl
  rw [read_of_statement hlist caption, Diagram.apply.eq_def] at h
  rw [← Except.ok.inj h]

/-- All that the diagram refers to is declared. -/
theorem valid_diagram : (⟨.classDiagram, r.diagram⟩ : Model).issues = [] := by
  have issues : r.diagram.issues = [] := by
    by_cases same : r.source = r.target <;>
      simp [Diagram.issues, Issue.ofCount, Diagram.unknown, Diagram.hasClass_eq, Diagram.classes, Keyed.has, Keyed.id,
        diagram, classes, same]
  exact issues

/-- The association is read back if and only if its line does not begin with the keyword of a title. -/
theorem parseAs_iff (options : ParseOptions) :
    parseAs .all options .classDiagram r.document = .ok ⟨.classDiagram, r.diagram⟩ ↔ r.overtaken = false := by
  rw [← Bool.not_eq_true, ← r.overtaken_line]
  constructor
  · intro h titled
    obtain ⟨t, content, parsed, isContent, checked⟩ := parseAs_eq_ok.1 h
    obtain rfl : r.diagram = content := (Model.mk.inj (eq_of_checkedModel checked)).2 |> eq_of_heq
    obtain ⟨caption, statement⟩ := takes_title titled
    obtain ⟨t', span, offset, parsed', statements⟩ := r.exists_statement statement
    rw [r.sourceOf_document] at parsed
    obtain rfl : t = t' := Except.ok.inj (parsed.symm.trans parsed')
    have unrelated := read_title statements isContent
    cases unrelated
  · intro free
    obtain ⟨node, operator, statement, isRelation⟩ := takes_association (Bool.not_eq_true _ ▸ free)
    obtain ⟨t, span, offset, parsed, statements⟩ := r.exists_statement statement
    obtain ⟨isOperator, operatorTexts, nodeTexts⟩ := isRelation offset
    refine parseAs_eq_ok.2 ⟨t, r.diagram, ?_, r.read_relation statements isOperator operatorTexts nodeTexts,
      checkedModel_of_valid r.valid_diagram⟩
    rw [r.sourceOf_document]
    exact parsed

end Association

end DiagramText.ClassDiagram
