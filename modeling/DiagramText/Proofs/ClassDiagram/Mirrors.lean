import DiagramText.Proofs.ClassDiagram.Ties

/-!
# Relationships read from either end

The line of a tie is parsed with each of its parts in the field for it if and only if the parts stand apart
(`exists_isRead_iff`). What is read of the parts is a relationship that goes to the end with the marker
(`relationshipOf_of_isRead`), and the markers of both ends stand for the same kinds (`Marker.ofEnd_right`). So it is the
same when the ends are swapped (`mirror_alike`).
-/

namespace DiagramText.ClassDiagram

open Peg Reading

/-! ## Reading the line -/

namespace Tie

/-- Whether the rule of relationships, which refers to no other rule, parses the line of a tie with each of its parts
in the field for it. -/
def IsRead (t : Tie) (g : Gaps) (relation : Tree) : Prop :=
  ∃ tree operator,
    grammar.parseWithin 0 relationRule (String.ofList (t.line g)) = .ok tree ∧
      tree.tree? "relation" = some relation ∧ Reading.texts relation = t.texts ∧
      relation.tree? "operator" = some operator ∧ Reading.texts operator = t.operatorTexts

theorem isRead_of_apart (t : Tie) {g : Gaps} (apart : t.Apart g) : ∃ relation, t.IsRead g relation := by
  obtain ⟨node, takes, isNode⟩ := @takes_tie grammar.rules 0 t g apart
  obtain ⟨texts, operator, isOperator, operatorTexts⟩ := isNode 0
  exact ⟨node 0, _, operator, parseWithin_of_takes takes, rfl, texts, isOperator, operatorTexts⟩

/-- What a tree was captured from. -/
theorem fields_of_toNode {a : Fragment} {span : Token} {tree : Tree} (h : (a.toNode span).tree? = some tree) :
    tree.fields = a.toFields := by
  rcases a with (_ | ⟨field, fields⟩) | (_ | ⟨first, trees⟩)
  · cases h
  · obtain rfl := Option.some.inj h
    rfl
  · cases h
  · cases h

/-- What is captured in a relation that is parsed. -/
theorem exists_of_isRead {t : Tie} {g : Gaps} {relation : Tree} (h : t.IsRead g relation) (front back : List Rule)
    (e : relationRule = .capture "relation" (.sequence (front ++ back))) :
    ∃ next a b, (Rule.sequence front).outcome grammar.rules 0 ⟨0, t.line g⟩ = some (next, a) ∧
      relation.fields = a.toFields ++ b := by
  obtain ⟨tree, operator, parsed, isRelation, -⟩ := h
  obtain ⟨next, whole, hwhole, -, rfl⟩ := parseWithin_eq_ok.1 parsed
  rw [Cursor.start, String.toList_ofList, e, outcome_capture, Option.map_eq_some_iff] at hwhole
  obtain ⟨⟨last, a⟩, ha, e⟩ := hwhole
  obtain ⟨rfl, rfl⟩ := Prod.mk.inj e
  obtain ⟨mid, b, c, hb, -, fields⟩ := sequence_append_eq_some ha
  exact ⟨mid, b, _, hb, (fields_of_toNode isRelation).trans fields⟩

/-- The name goes on as far as it can, so nothing continues it where it is all that was captured. -/
theorem name_of_isRead {t : Tie} {g : Gaps} {relation : Tree} (h : t.IsRead g relation) :
    ∀ c ∈ (t.behindLeft g).head?, isIdentChar c = false := by
  obtain ⟨next, a, b, ha, fields⟩ := exists_of_isRead h [.capture "from" nameRule] _ rfl
  obtain ⟨-, -, -, -, captured, -⟩ := h
  obtain ⟨more, rest, cut⟩ : ∃ more rest, (t.behindLeft g).span isIdentChar = (more, rest) := ⟨_, _, rfl⟩
  obtain ⟨whole, plainMore, stop⟩ := Chars.span_eq_iff.1 cut
  have word : (String.ofList (t.left.name.toList ++ more)).toList = t.left.name.toList ++ more := String.toList_ofList
  have isName : IsName (String.ofList (t.left.name.toList ++ more)) := by
    obtain ⟨c, cs, e, start, plain⟩ := t.left.isName
    exact ⟨c, cs ++ more, by rw [word, e, List.cons_append], start, List.forall_mem_append.2 ⟨plain, plainMore⟩⟩
  rw [line, whole, ← List.append_assoc, ← word, ((isName.takes stop).token rfl "from").last 0] at ha
  obtain ⟨-, rfl⟩ := Prod.mk.inj (Option.some.inj ha)
  rw [Reading.texts, fields, texts] at captured
  obtain ⟨same, -⟩ := List.cons.inj captured
  obtain rfl : more = [] :=
    List.append_right_eq_self.1 (word.symm.trans (congrArg String.toList (Prod.mk.inj same).2))
  exact whole ▸ stop

/-- The operator takes what is found at its right end, so that is what was meant. -/
theorem circle_of_isRead {t : Tie} {g : Gaps} {relation : Tree} (h : t.IsRead g relation) :
    StartsCircle ((t.rightEnd.getD "").toList ++ t.behindOperator g) ↔ t.right.marker = some .circle := by
  have name := name_of_isRead h
  obtain ⟨next, a, b, ha, fields⟩ := exists_of_isRead h
    [.capture "from" nameRule, .optional genericRule, ws,
      .optional (.sequence [.capture "from_cardinality" quotedString, ws]), operatorRule] _ rfl
  obtain ⟨-, operator, -, -, -, isOperator, captured⟩ := h
  obtain ⟨found, behind, e, hsome, hnone, exact⟩ :=
    @exists_found grammar.rules 0 (t.behindOperator g) t (head_behindOperator t g)
  obtain ⟨node, takesOperator, isNode⟩ := takes_operator_found t hsome hnone
  have same : (t.leftEnd.getD "").toList ++ (t.stroke.toList ++ (found.getD "").toList) ++ behind =
      t.operator.toList ++ t.behindOperator g := by
    rw [toList_operator]
    simp only [List.append_assoc, e]
  obtain ⟨inked, head⟩ := head_operator t (t.behindOperator g)
  rw [behindLeft, ← same] at name
  rw [← same] at inked head
  obtain ⟨_, takes, isTaken⟩ := takes_front t g inked head name takesOperator.last
  have whole : t.line g = t.left.name.toList ++ (g.left ++ (cardinalityText t.left.cardinality g.leftCardinality ++
      ((t.leftEnd.getD "").toList ++ (t.stroke.toList ++ (found.getD "").toList)))) ++ behind := by
    rw [line, behindLeft, ← same]
    simp only [List.append_assoc]
  rw [whole, takes 0] at ha
  obtain ⟨-, rfl⟩ := Prod.mk.inj (Option.some.inj ha)
  obtain ⟨start, later, e⟩ := isTaken 0
  have atNode : relation.tree? "operator" = some (node later) := by
    rw [Tree.tree?, Tree.get?, fields, Fragment.toFields, e]
    cases t.left.cardinality <;> rfl
  obtain rfl := Option.some.inj (atNode.symm.trans isOperator)
  rw [(isNode later).1, operatorTexts, List.append_cancel_left_eq, List.cons_inj_right] at captured
  refine exact.1 ?_
  revert captured
  cases found <;> cases t.rightEnd <;> simp

/-- The parts of a line are found if and only if they stand apart. -/
theorem exists_isRead_iff (t : Tie) (g : Gaps) : (∃ relation, t.IsRead g relation) ↔ t.Apart g :=
  ⟨fun ⟨_, h⟩ => ⟨name_of_isRead h, circle_of_isRead h⟩, t.isRead_of_apart⟩

/-- The relationship that a tie stands for. A marker at the left end alone makes the right class the source. -/
def relationship (t : Tie) : Relationship :=
  let label := ((t.label.map trim).filter (· != "")).map unquote
  match t.left.marker, t.right.marker with
  | some m, none =>
    { source := t.right.name, target := t.left.name, kind := .ofEnd (some m.left) t.dashed, label
      sourceCardinality := t.right.cardinality.map unquote
      targetCardinality := t.left.cardinality.map unquote }
  | left, right =>
    { source := t.left.name, target := t.right.name, kind := .ofEnd (right.map Marker.right) t.dashed
      bidirectional := left.isSome && right.isSome, label
      sourceCardinality := t.left.cardinality.map unquote
      targetCardinality := t.right.cardinality.map unquote }

section

variable {t : Tie} {g : Gaps} {relation : Tree}

/-- A cardinality is read without its quotes. -/
theorem string?_cardinality {q : Option String} (hq : ∀ s ∈ q, IsQuoted s) {field : String}
    (h : relation.text? field = q) : relation.string? field = q.map unquote := by
  cases q with
  | none => rw [Tree.string?, filled?_of_none _ _ h]
  | some s => rw [Tree.string?, filled?_of_text? _ _ h (hq s rfl).trim_eq (hq s rfl).ne_empty]

/-- The blanks in front of a label are trimmed in any case. -/
theorem trim_unindented (s : String) : trim (String.ofList (Chars.unindented s.toList)) = trim s := by
  have blank : ∀ c ∈ Chars.indentation s.toList, isBlank c = true := by
    intro c hc
    obtain rfl | rfl := Chars.blank_of_mem_indentation c hc <;> rfl
  rw [trim, trim, String.toList_ofList, Chars.trim, Chars.trim]
  conv_rhs => rw [← Chars.indentation_append_unindented s.toList, Chars.trimStart_append_of_blank blank]

theorem lookup_texts (t : Tie) : t.texts.lookup "to" = some t.right.name ∧
    t.texts.lookup "from_cardinality" = t.left.cardinality ∧ t.texts.lookup "to_cardinality" = t.right.cardinality ∧
    t.texts.lookup "label" = t.label.map fun s => String.ofList (Chars.unindented s.toList) := by
  rw [texts]
  cases t.left.cardinality <;> cases t.right.cardinality <;> cases t.label <;> exact ⟨rfl, rfl, rfl, rfl⟩

theorem lookup_operatorTexts (t : Tie) : t.operatorTexts.lookup "left_end" = t.leftEnd ∧
    t.operatorTexts.lookup "line" = some t.stroke ∧ t.operatorTexts.lookup "right_end" = t.rightEnd := by
  rw [operatorTexts]
  cases t.leftEnd <;> cases t.rightEnd <;> exact ⟨rfl, rfl, rfl⟩

/-- A line that is parsed with its parts is read as its relationship. -/
theorem relationshipOf_of_isRead (h : t.IsRead g relation) : relationshipOf relation = .ok t.relationship := by
  obtain ⟨-, operator, -, -, isRelation, isOperator, ends⟩ := h
  obtain ⟨right, fromCardinality, toCardinality, label⟩ := t.lookup_texts
  obtain ⟨leftEnd, line, rightEnd⟩ := t.lookup_operatorTexts
  have group : (relation.needGroup "operator" : Reading Fallacy Tree) = .ok operator :=
    (needGroup_eq_ok _ _).2 isOperator
  have stroke : trim t.stroke = t.stroke ∧ (t.stroke == "..") = t.dashed := by
    rw [Tie.stroke]
    cases t.dashed <;> decide
  have line : (operator.needText "line" : Reading Fallacy String) = .ok t.stroke :=
    needText_of_text? _ _ (text?_of_texts _ _ ends line) stroke.1
  have source : (relation.needText "from" : Reading Fallacy String) = .ok t.left.name :=
    needText_of_text? _ _ (text?_of_texts _ _ isRelation rfl) t.left.isName.trim_eq
  have target : (relation.needText "to" : Reading Fallacy String) = .ok t.right.name :=
    needText_of_text? _ _ (text?_of_texts _ _ isRelation right) t.right.isName.trim_eq
  have label : relation.string? "label" = ((t.label.map trim).filter (· != "")).map unquote := by
    rw [Tree.string?, Tree.filled?, Tree.trimmed?, text?_of_texts _ _ isRelation label, Option.map_map]
    simp only [Function.comp_def, trim_unindented]
  refine bind_eq_ok.2 ⟨_, group, bind_eq_ok.2 ⟨_, line, bind_eq_ok.2 ⟨_, source, bind_eq_ok.2 ⟨_, target, ?_⟩⟩⟩⟩
  rw [text?_of_texts _ _ ends leftEnd, text?_of_texts _ _ ends rightEnd, stroke.2, label, relationship, Tie.leftEnd,
    Tie.rightEnd,
    string?_cardinality t.left.isQuoted (text?_of_texts _ _ isRelation fromCardinality),
    string?_cardinality t.right.isQuoted (text?_of_texts _ _ isRelation toCardinality)]
  cases t.left.marker <;> cases t.right.marker <;> rfl

/-- A tie with a marker at the left end alone is the same relationship as the tie that is written the other way. -/
theorem relationship_mirror (left : t.left.marker.isSome = true) (right : t.right.marker = none) :
    t.mirror.relationship = t.relationship := by
  obtain ⟨m, marker⟩ := Option.isSome_iff_exists.1 left
  simp only [relationship, mirror, marker, right, Option.map_some, Option.isSome_none, Bool.false_and, m.ofEnd_right]

end

/-- A line is parsed with its parts if and only if these stand apart. If such a line has a marker at the left end alone,
the line with the ends swapped is read as the same relationship, whose target is the end with the marker. With markers
at both ends the relationship goes both ways, from the class that is written first. -/
theorem mirror_alike (t : Tie) (g g' : Gaps) :
    ((∃ relation, t.IsRead g relation) ↔ t.Apart g) ∧
      (t.left.marker.isSome = true → t.right.marker = none →
        ∀ relation relation', t.IsRead g relation → t.mirror.IsRead g' relation' →
          relationshipOf relation' = relationshipOf relation ∧
            ∃ r, relationshipOf relation = .ok r ∧ r.bidirectional = false ∧
              r.source = t.right.name ∧ r.sourceCardinality = t.right.cardinality.map unquote ∧
              r.target = t.left.name ∧ r.targetCardinality = t.left.cardinality.map unquote) ∧
      (t.left.marker.isSome = true → t.right.marker.isSome = true → ∀ relation, t.IsRead g relation →
        ∃ r, relationshipOf relation = .ok r ∧ r.bidirectional = true ∧
          r.source = t.left.name ∧ r.sourceCardinality = t.left.cardinality.map unquote ∧
          r.target = t.right.name ∧ r.targetCardinality = t.right.cardinality.map unquote) := by
  refine ⟨t.exists_isRead_iff g, fun left right relation relation' h h' => ?_, fun left right relation h => ?_⟩
  · obtain ⟨m, marker⟩ := Option.isSome_iff_exists.1 left
    rw [relationshipOf_of_isRead h, relationshipOf_of_isRead h', relationship_mirror left right]
    refine ⟨rfl, _, rfl, ?_⟩
    simp only [relationship, marker, right, and_self]
  · obtain ⟨m, marker⟩ := Option.isSome_iff_exists.1 left
    obtain ⟨m', marker'⟩ := Option.isSome_iff_exists.1 right
    refine ⟨_, relationshipOf_of_isRead h, ?_⟩
    simp only [relationship, marker, marker', Option.isSome_some, Bool.and_self, and_self]

/-- An aggregation from either end, and a line with markers at both ends. -/
theorem mirror_alike_aggregation : ∃ (t t' : Tie) (g : Gaps),
    String.ofList (t.line g) = "Pond \"1\" o-- \"0..*\" Duck : holds" ∧
      String.ofList (t.mirror.line g) = "Duck \"0..*\" --o \"1\" Pond : holds" ∧
      (∃ relation relation' r, t.IsRead g relation ∧ t.mirror.IsRead g relation' ∧
        relationshipOf relation = .ok r ∧ relationshipOf relation' = .ok r ∧
        r.target = "Pond" ∧ r.targetCardinality = some "1" ∧ r.bidirectional = false) ∧
      String.ofList (t'.line g) = "Duck <|--* Pond" ∧
      ∃ relation r, t'.IsRead g relation ∧ relationshipOf relation = .ok r ∧ r.source = "Duck" ∧
        r.target = "Pond" ∧ r.bidirectional = true := by
  let g : Gaps := ⟨[' '], [' '], [' '], [' '], [' '], by decide⟩
  have blank : g.left ≠ [] ∧ g.right ≠ [] := by decide
  let t : Tie :=
    ⟨⟨"Pond", some "\"1\"", some .circle, ⟨'P', _, rfl, by decide, by decide⟩, by decide⟩,
      ⟨"Duck", some "\"0..*\"", none, ⟨'D', _, rfl, by decide, by decide⟩, by decide +kernel⟩,
      false, some " holds", by decide⟩
  let t' : Tie :=
    ⟨⟨"Duck", none, some .triangle, ⟨'D', _, rfl, by decide, by decide⟩, nofun⟩,
      ⟨"Pond", none, some .diamond, ⟨'P', _, rfl, by decide, by decide⟩, nofun⟩, false, none, nofun⟩
  obtain ⟨read, alike, -⟩ := mirror_alike t g g
  obtain ⟨relation, isRead⟩ := read.2 (t.apart_of_blanks blank.1 blank.2)
  obtain ⟨relation', isRead'⟩ := (mirror_alike t.mirror g g).1.2 (t.mirror.apart_of_blanks blank.1 blank.2)
  obtain ⟨same, r, hr, oneWay, -, -, target, cardinality⟩ := alike rfl rfl relation relation' isRead isRead'
  obtain ⟨read, -, both⟩ := mirror_alike t' g g
  obtain ⟨relation'', isRead''⟩ := read.2 (t'.apart_of_blanks blank.1 blank.2)
  obtain ⟨r', hr', bothWays, source', -, target', -⟩ := both rfl rfl relation'' isRead''
  exact ⟨t, t', g, by decide, by decide,
    ⟨relation, relation', r, isRead, isRead', hr, same.trans hr, target, cardinality.trans (by decide), oneWay⟩,
    by decide, relation'', r', isRead'', hr', source', target', bothWays⟩

/-- The relationship that the rule of relationships parses a line as. -/
def ofLine? (line : String) : Option Relationship :=
  ((grammar.parseWithin 0 relationRule line).toOption.bind (·.tree? "relation")).bind
    (relationshipOf · |>.toOption)

/-- A circle right in front of the right class does not stand apart: it is taken as the start of the name, and the line
as a link to another class. -/
theorem mirror_of_joined_circle : ∃ (t : Tie) (g : Gaps), t.left.marker.isSome = true ∧ t.right.marker = none ∧
    String.ofList (t.line g) = "Pond o--Duck" ∧ String.ofList (t.mirror.line g) = "Duck --oPond" ∧
      ofLine? "Pond o--Duck" = some { source := "Duck", target := "Pond", kind := .aggregation } ∧
      ofLine? "Duck --oPond" = some { source := "Duck", target := "oPond", kind := .link } := by
  let g : Gaps := ⟨[' '], [], [], [], [], by decide⟩
  let t : Tie :=
    ⟨⟨"Pond", none, some .circle, ⟨'P', _, rfl, by decide, by decide⟩, nofun⟩,
      ⟨"Duck", none, none, ⟨'D', _, rfl, by decide, by decide⟩, nofun⟩, false, none, nofun⟩
  refine ⟨t, g, rfl, rfl, by decide, by decide, ?_⟩
  decide +kernel

end Tie

end DiagramText.ClassDiagram
