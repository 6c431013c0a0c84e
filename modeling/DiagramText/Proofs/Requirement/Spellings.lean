import DiagramText.Proofs.Parse
import DiagramText.Proofs.Peg.Quoted
import DiagramText.Proofs.Recast.Graphs
import DiagramText.Proofs.Requirement.Statements
import DiagramText.Proofs.Text.Quoting

/-!
# Relations written from either end

A relation is written from its source (`forward`) or from its target (`backward`). In front of what does not
continue a name the rule of relations takes either spelling, with the same names in the same fields
(`takes_forward`, `takes_backward`), for names are either plain or quoted (`IsName.cases`). It is the last rule of
statements. Those in front of it ask for a keyword, a blank and something that neither arrow starts with; all but
one, since a direction may be a hyphen. So both spellings are statements (`takes_statement_forward`,
`takes_statement_backward`), unless the source is named like the keyword of directions: then the line up to the
hyphen is one (`misses_forward_direction`).
-/

namespace DiagramText.Requirement

open Peg Reading

/-! ## Names -/

/-- Whether the rule of names, which refers to no other rule, takes the whole text. -/
def IsName (name : String) : Prop :=
  ∃ tree, grammar.parseWithin 0 nameRule name = .ok tree

instance (name : String) : Decidable (IsName name) :=
  decidable_of_iff ((grammar.parseWithin 0 nameRule name).toOption.isSome = true) (by
    simp only [IsName, Option.isSome_iff_exists, toOption_eq_some])

section

variable {table : List (String × Rule)} {depth : Nat} {rest : List Char} {name : String}

theorem not_isBlank_of_isNameChar {c : Char} (h : isNameChar c = true) : isBlank c = false :=
  Chars.not_isBlank_of_class (by decide +kernel) h

namespace IsName

/-- A name is made of its characters or quoted. -/
theorem cases (h : IsName name) :
    (name.toList ≠ [] ∧ ∀ c ∈ name.toList, isNameChar c = true) ∨
      ∃ body, name.toList = '"' :: (body ++ ['"']) ∧
        ∀ table depth rest, quotedString.Takes table depth name.toList rest fun _ => .fields [] := by
  obtain ⟨tree, parsed⟩ := h
  obtain ⟨⟨stop, rest⟩, a, hm, hrest, -⟩ := parseWithin_eq_ok.1 parsed
  obtain rfl : rest = [] := hrest
  rw [Cursor.start, ← List.append_nil name.toList, nameRule, outcome_labelled, outcome_choice_cons,
    Option.or_eq_some_iff] at hm
  obtain hm | ⟨-, hm⟩ := hm
  · right
    obtain ⟨body, e, -⟩ := @takes_quoted _ grammar.rules _ 0 _ _ _ _ _ hm
    exact ⟨body, e, fun table depth rest => (takes_quoted hm).choose_spec.2 rest⟩
  · left
    obtain ⟨text, plain, hne, hs⟩ := plainName_spans hm
    obtain rfl : name.toList = text := List.append_cancel_right hs.rest
    exact ⟨hne, plain⟩

/-- A name is taken in front of what does not continue it. -/
theorem takes (h : IsName name) (hstop : ∀ c ∈ rest.head?, isNameChar c = false) :
    ∃ leaves, nameRule.Takes table depth name.toList rest leaves := by
  obtain ⟨hne, plain⟩ | ⟨body, e, takes⟩ := h.cases
  · have noQuote : quotedString.Misses table depth (name.toList ++ rest) := by
      refine misses_quotedString fun c hc quote => ?_
      obtain ⟨d, ds, e⟩ := List.exists_cons_of_ne_nil hne
      rw [e] at hc plain
      obtain rfl : d = '"' := (Option.some.inj hc).trans quote
      exact absurd (plain '"' List.mem_cons_self) (by decide)
    have run : (many1 (.chars (.satisfying isNameChar "name character"))).Takes table depth name.toList rest
        fun _ => .items [] := takes_many1_chars hne plain hstop
    exact ⟨_, (noQuote.choice run.choice).labelled "name"⟩
  · exact ⟨_, (takes table depth rest).choice.labelled "name"⟩

/-- A name begins with a quote or a character of names. -/
theorem exists_head (h : IsName name) (rest : List Char) :
    ∃ c ∈ (name.toList ++ rest).head?, isNameStart c = true := by
  obtain ⟨hne, plain⟩ | ⟨body, e, -⟩ := h.cases
  · obtain ⟨c, cs, e⟩ := List.exists_cons_of_ne_nil hne
    rw [e] at plain ⊢
    exact ⟨c, rfl, by simp [isNameStart, plain c List.mem_cons_self]⟩
  · exact ⟨'"', by rw [e]; rfl, rfl⟩

theorem inked (h : IsName name) (rest : List Char) : Inked (name.toList ++ rest) := by
  obtain ⟨c, hc, start⟩ := h.exists_head rest
  exact inked_of_head hc start

/-- No blanks stand around a name. -/
theorem trim_eq (h : IsName name) : trim name = name := by
  obtain ⟨hne, plain⟩ | ⟨body, e, -⟩ := h.cases
  · have visible : ∀ c ∈ name.toList, isBlank c = false :=
      fun c hc => not_isBlank_of_isNameChar (plain c hc)
    rw [trim, Chars.trim_word hne visible, String.ofList_toList]
  · have quoted := Chars.trim_quoted body
    rw [List.cons_append, ← e] at quoted
    rw [trim, quoted, String.ofList_toList]

/-- What ends with a name is not trimmed. -/
theorem trimEnd_append (h : IsName name) (front rest : List Char) :
    Chars.trimEnd (front ++ (name.toList ++ rest)) = front ++ (name.toList ++ Chars.trimEnd rest) := by
  obtain ⟨hne, plain⟩ | ⟨body, e, -⟩ := h.cases
  · exact Chars.trimEnd_append_word front hne (fun c hc => not_isBlank_of_isNameChar (plain c hc)) rest
  · have quote := Chars.trimEnd_append_of_not_blank (front ++ '"' :: body) (show isBlank '"' = false by decide) rest
    rw [e]
    simpa only [List.append_assoc, List.cons_append, List.nil_append] using quote

end IsName

end

/-! ## Two spellings of a relation -/

/-- A relation written from its source. -/
def forward (source : String) (r : Relation) (target : String) : String :=
  source ++ (" " ++ ("-" ++ (" " ++ (r.word ++ (" " ++ ("->" ++ (" " ++ target)))))))

/-- A relation written from its target. -/
def backward (source : String) (r : Relation) (target : String) : String :=
  target ++ (" " ++ ("<-" ++ (" " ++ (r.word ++ (" " ++ ("-" ++ (" " ++ source)))))))

section

variable {table : List (String × Rule)} {depth : Nat} {rest : List Char} {a b : String}

/-- The words of relations, as the rule of relations knows them. -/
def relationWords : List String := ["contains", "copies", "derives", "satisfies", "verifies", "refines", "traces"]

theorem takes_relationRule (r : Relation) (hstop : ∀ c ∈ rest.head?, isWordChar c = false) :
    relationRule.Takes table depth r.word.toList rest fun _ => .fields [] := by
  have word : r.word ∈ relationWords := by cases r <;> decide
  exact (takes_keywords word (by simp [relationWords, isWordChar]) hstop).labelled "relationship type"

/-- Two names with the word of a relation and arrows between them. -/
def spelling (field first second field' : String) : Rule :=
  .sequence [.capture field nameRule, ws, lit first, ws, .capture "relation" relationRule, ws, lit second, ws,
    .capture field' nameRule]

theorem takes_spelling {first second : String}
    (hfirst : ∀ rest, ∀ c ∈ (first.toList ++ rest).head?, c ≠ ' ' ∧ c ≠ '\t')
    (hsecond : ∀ rest, ∀ c ∈ (second.toList ++ rest).head?, c ≠ ' ' ∧ c ≠ '\t') (ha : IsName a) (hb : IsName b)
    (r : Relation) (hstop : ∀ c ∈ rest.head?, isNameChar c = false) (field field' : String) :
    ∃ fields : Nat → List (String × Node),
      (spelling field first second field').Takes table depth
          (a.toList ++ (" ".toList ++ (first.toList ++ (" ".toList ++ (r.word.toList ++ (" ".toList ++
            (second.toList ++ (" ".toList ++ b.toList)))))))) rest (fun offset => .fields (fields offset)) ∧
      ∀ offset, (fields offset).map (fun (field, node) => (field, node.text)) =
        [(field, a), ("relation", r.word), (field', b)] := by
  have noBlank {text : List Char} (h : ∀ rest, ∀ c ∈ (text ++ rest).head?, c ≠ ' ' ∧ c ≠ '\t')
      (more rest : List Char) : ∀ c ∈ (text ++ more ++ rest).head?, c ≠ ' ' ∧ c ≠ '\t' := by
    rw [List.append_assoc]
    exact h _
  have isWord : ∀ rest, ∀ c ∈ (r.word.toList ++ rest).head?, c ≠ ' ' ∧ c ≠ '\t' := by
    cases r <;> rintro rest c ⟨⟩ <;> decide
  obtain ⟨leaves, target⟩ := @IsName.takes table depth rest b hb hstop
  have fromTarget := (target.token rfl field').last
  have fromSecond := (takes_lit second _).skip rfl
    ((takes_blank fun c hc => ((hb.inked rest).head c hc).1).skip rfl fromTarget)
  have relation := @takes_relationRule table depth ([' '] ++ (second.toList ++ ([' '] ++ b.toList)) ++ rest) r
    (by rintro c ⟨⟩; decide)
  have fromRelation := (relation.token rfl "relation").cons
    ((takes_blank (noBlank hsecond _ _)).skip rfl fromSecond)
  have fromFirst := (takes_lit first _).skip rfl ((takes_blank (noBlank isWord _ _)).skip rfl fromRelation)
  have fromBlank := (takes_blank (noBlank hfirst _ _)).skip rfl fromFirst
  obtain ⟨leaves, source⟩ := @IsName.takes table depth ([' '] ++ (first.toList ++ ([' '] ++ (r.word.toList ++
    ([' '] ++ (second.toList ++ ([' '] ++ b.toList)))))) ++ rest) a ha (by rintro c ⟨⟩; decide)
  exact ⟨_, (source.token rfl field).cons fromBlank, fun offset => rfl⟩

theorem takes_relationship {text : List Char} {fields : Nat → List (String × Node)} {texts : List (String × String)}
    (hne : texts ≠ []) (h : ∀ offset, (fields offset).map (fun (field, node) => (field, node.text)) = texts)
    (taken : (Rule.choice [spelling "source" "-" "->" "target", spelling "target" "<-" "-" "source"]).Takes
      table depth text rest fun offset => .fields (fields offset)) :
    ∃ node : Nat → Tree, relationshipRule.Takes table depth text rest
      (fun offset => .fields [("relationship", .tree (node offset))]) ∧
        ∀ offset, Reading.texts (node offset) = texts := by
  refine ⟨fun offset => .mk ⟨String.ofList text, offset⟩ (fields offset), fun offset => ?_, h⟩
  have group : (Fragment.fields (fields offset)).toNode ⟨String.ofList text, offset⟩ =
      .tree (.mk ⟨String.ofList text, offset⟩ (fields offset)) := by
    cases hfields : fields offset with
    | nil => exact absurd (by rw [← h offset, hfields]; rfl) hne
    | cons => rfl
  refine (taken.capture "relationship" offset).trans ?_
  dsimp only
  rw [group]

/-- A relation is taken when it is written from its source. -/
theorem takes_forward (ha : IsName a) (hb : IsName b) (r : Relation)
    (hstop : ∀ c ∈ rest.head?, isNameChar c = false) :
    ∃ node : Nat → Tree, relationshipRule.Takes table depth (forward a r b).toList rest
      (fun offset => .fields [("relationship", .tree (node offset))]) ∧
        ∀ offset, texts (node offset) = [("source", a), ("relation", r.word), ("target", b)] := by
  obtain ⟨fields, spelled, texts⟩ := @takes_spelling table depth rest a b "-" "->" (by rintro rest c ⟨⟩; decide)
    (by rintro rest c ⟨⟩; decide) ha hb r hstop "source" "target"
  obtain ⟨node, taken, found⟩ := takes_relationship (by simp) texts spelled.choice
  refine ⟨node, ?_, found⟩
  simpa only [forward, String.toList_append] using taken

/-- A relation is taken when it is written from its target. -/
theorem takes_backward (ha : IsName a) (hb : IsName b) (r : Relation)
    (hstop : ∀ c ∈ rest.head?, isNameChar c = false) :
    ∃ node : Nat → Tree, relationshipRule.Takes table depth (backward a r b).toList rest
      (fun offset => .fields [("relationship", .tree (node offset))]) ∧
        ∀ offset, texts (node offset) = [("target", b), ("relation", r.word), ("source", a)] := by
  obtain ⟨fields, spelled, texts⟩ := @takes_spelling table depth rest b a "<-" "-" (by rintro rest c ⟨⟩; decide)
    (by rintro rest c ⟨⟩; decide) hb ha r hstop "target" "source"
  let behind := "<-".toList ++ (" ".toList ++ (r.word.toList ++ (" ".toList ++ ("-".toList ++
    (" ".toList ++ a.toList)))))
  have noArrow : (lit "-").Misses table depth (behind ++ rest) := fun _ => rfl
  have blank : ws.Takes table depth " ".toList (behind ++ rest) _ := takes_blank (by rintro c ⟨⟩; decide)
  obtain ⟨leaves, target⟩ := @IsName.takes table depth (" ".toList ++ (behind ++ rest)) b hb
    (by rintro c ⟨⟩; decide)
  have other : (spelling "source" "-" "->" "target").Misses table depth
      (b.toList ++ (" ".toList ++ (behind ++ rest))) :=
    (target.capture "source").misses (blank.misses noArrow.sequence)
  rw [← List.append_assoc " ".toList, ← List.append_assoc b.toList] at other
  obtain ⟨node, taken, found⟩ := takes_relationship (by simp) texts (other.choice spelled.choice)
  refine ⟨node, ?_, found⟩
  simpa only [backward, String.toList_append] using taken

/-! ## Relations and directions -/

/-- A name and what follows a blank behind it open a text, if the name is not quoted. -/
theorem opening_name {mark : Char} {more : List Char} (h : IsName a) (hmark : mark ≠ ' ' ∧ mark ≠ '\t') :
    opening (a.toList ++ ([' '] ++ mark :: more)) = (a.toList, some mark) ∨
      opening (a.toList ++ ([' '] ++ mark :: more)) = ([], some '"') := by
  obtain ⟨-, plain⟩ | ⟨body, e, -⟩ := h.cases
  · exact .inl (opening_append plain (by simp) hmark (.inl (List.cons_ne_nil _ _)))
  · rw [e]
    exact .inr (@opening_append [] [] _ '"' nofun nofun (by decide) (.inr (by decide)))

/-- Where a relation is taken, only the line of a direction may be in front of it. -/
theorem misses_blocks {text : List Char} {leaves : Nat → Fragment}
    (h : relationshipRule.Takes table depth text rest leaves) :
    requirementRule.Misses table depth (text ++ rest) ∧ elementRule.Misses table depth (text ++ rest) ∧
      (accessibility "acc_title" "acc_descr").Misses table depth (text ++ rest) := by
  have noArrow : (isNameStart '-' = false ∧ isNameStart '<' = false) ∧
      isCaptionMark '-' = false ∧ isCaptionMark '<' = false := by decide
  exact ⟨fun offset => opens_requirement.apart_relationship (by decide) noArrow.1 (h offset),
    fun offset => opens_element.apart_relationship (by decide) noArrow.1 (h offset),
    fun offset => opens_accessibility.apart_relationship (by decide) noArrow.2 (h offset)⟩

/-- A relation is a statement, unless the line of a direction is taken in its place. -/
theorem takes_statement {text : List Char} {leaves : Nat → Fragment}
    (h : relationshipRule.Takes table depth text rest leaves)
    (hdirection : directionRule.Misses table depth (text ++ rest)) :
    statementRule.Takes table depth text rest leaves := by
  obtain ⟨noRequirement, noElement, noCaption⟩ := misses_blocks h
  rw [statementRule_eq]
  exact (noRequirement.choice (noElement.choice (hdirection.choice (noCaption.choice h.choice)))).labelled _

theorem misses_direction {text : List Char}
    (h : ∀ c, opening text = ("direction".toList, some c) → isWordChar c = false) :
    directionRule.Misses table depth text := by
  intro offset
  rw [Option.eq_none_iff_forall_ne_some]
  intro found hm
  obtain ⟨word, hword, c, opened, isWord⟩ := opens_direction ⟨offset, text⟩ found hm
  obtain rfl := List.mem_singleton.1 hword
  rw [h c opened] at isWord
  cases isWord

/-- Written from its target a relation is a statement. -/
theorem takes_statement_backward (ha : IsName a) (hb : IsName b) (r : Relation)
    (hstop : ∀ c ∈ rest.head?, isNameChar c = false) :
    ∃ node : Nat → Tree, statementRule.Takes table depth (backward a r b).toList rest
      (fun offset => .fields [("relationship", .tree (node offset))]) ∧
        ∀ offset, texts (node offset) = [("target", b), ("relation", r.word), ("source", a)] := by
  obtain ⟨node, taken, texts⟩ := @takes_backward table depth rest a b ha hb r hstop
  refine ⟨node, takes_statement taken (misses_direction fun c opened => ?_), texts⟩
  have line : (backward a r b).toList ++ rest = b.toList ++ ([' '] ++ '<' :: ("- ".toList ++ (r.word.toList ++
      (" - ".toList ++ (a.toList ++ rest))))) := by simp [backward]
  rw [line] at opened
  obtain opened' | opened' := @opening_name b '<' _ hb (by decide)
  · rw [opened'] at opened
    obtain rfl : '<' = c := Option.some.inj (Prod.mk.inj opened).2
    rfl
  · rw [opened'] at opened
    exact absurd (Prod.mk.inj opened).1 (by decide)

/-- Written from its source a relation is a statement, unless that is named like the keyword of directions. -/
theorem takes_statement_forward (ha : IsName a) (hb : IsName b) (r : Relation) (hne : a ≠ "direction")
    (hstop : ∀ c ∈ rest.head?, isNameChar c = false) :
    ∃ node : Nat → Tree, statementRule.Takes table depth (forward a r b).toList rest
      (fun offset => .fields [("relationship", .tree (node offset))]) ∧
        ∀ offset, texts (node offset) = [("source", a), ("relation", r.word), ("target", b)] := by
  obtain ⟨node, taken, texts⟩ := @takes_forward table depth rest a b ha hb r hstop
  refine ⟨node, takes_statement taken (misses_direction fun c opened => ?_), texts⟩
  have line : (forward a r b).toList ++ rest = a.toList ++ ([' '] ++ '-' :: (" ".toList ++ (r.word.toList ++
      (" -> ".toList ++ (b.toList ++ rest))))) := by simp [forward]
  rw [line] at opened
  obtain opened' | opened' := @opening_name a '-' _ ha (by decide)
  · rw [opened'] at opened
    exact absurd (String.toList_inj.1 (Prod.mk.inj opened).1) hne
  · rw [opened'] at opened
    exact absurd (Prod.mk.inj opened).1 (by decide)

/-- A relation whose source is named like the keyword of directions becomes a direction and does not end its
line. -/
theorem misses_forward_direction {name : String} (hr : table.lookup name = some statementRule)
    (ha : IsName "direction") (hb : IsName b) (r : Relation) (hstop : ∀ c ∈ rest.head?, isNameChar c = false) :
    (Rule.sequence [.ref name, eol]).Misses table (depth + 1) ((forward "direction" r b).toList ++ rest) := by
  obtain ⟨node, taken, -⟩ := @takes_forward table depth rest "direction" b ha hb r hstop
  let behind := r.word.toList ++ (" -> ".toList ++ (b.toList ++ rest))
  have line : (forward "direction" r b).toList ++ rest =
      "direction".toList ++ ([' '] ++ "-".toList) ++ ([' '] ++ behind) := by simp [forward, behind]
  obtain ⟨noRequirement, noElement, -⟩ := misses_blocks taken
  rw [line] at noRequirement noElement ⊢
  have hyphen : word.Takes table depth "-".toList ([' '] ++ behind) fun _ => .items [] :=
    takes_word (by simp) (by simp [isWordChar]) (by rintro c ⟨⟩; decide)
  have blank : ws1.Takes table depth [' '] ("-".toList ++ ([' '] ++ behind)) fun _ => .items [] :=
    takes_space (by rintro c ⟨⟩; decide)
  have keyword : (keyword "direction").Takes table depth "direction".toList
      ([' '] ++ "-".toList ++ ([' '] ++ behind)) fun _ => .fields [] :=
    takes_keyword "direction" (by rintro c ⟨⟩; decide)
  have direction : directionRule.Takes table depth ("direction".toList ++ ([' '] ++ "-".toList))
      ([' '] ++ behind) _ := keyword.skip rfl (blank.skip rfl (hyphen.token rfl "direction").last)
  obtain ⟨leaves, statement⟩ : ∃ leaves, statementRule.Takes table depth
      ("direction".toList ++ ([' '] ++ "-".toList)) ([' '] ++ behind) leaves := by
    rw [statementRule_eq]
    exact ⟨_, (noRequirement.choice (noElement.choice direction.choice)).labelled _⟩
  have inked : Inked behind := by
    cases r <;> exact ⟨_, rfl, by decide⟩
  exact (statement.ref hr).misses (inked.misses_eol (by simp)).sequence

end

end DiagramText.Requirement
