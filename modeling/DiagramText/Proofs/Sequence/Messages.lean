import DiagramText.Proofs.Parse
import DiagramText.Proofs.Peg.Keywords

/-!
# Documents of one message

The document of a message (`MessageLine.document`) has one line behind its header, which the rule of messages
takes (`takes_message`). The rules of other statements start with a keyword, and all but two of them need a
blank, a colon or a brace behind it, so they miss the line whatever the source is called
(`IsLine.misses_headed`). The two are numbering and titles: they take the line if it begins with their keyword
(`MessageLine.overtaken`), and only then the message is not read back
(`MessageLine.parseAs_iff`).
-/

namespace DiagramText.Sequence

open Peg Reading

/-! ## Messages and their documents -/

/-- The tokens of arrows with the arrows that they draw. -/
def arrows : List (String × Arrow) :=
  [("<<-->>", ⟨.dotted, .both⟩), ("<<->>", ⟨.solid, .both⟩), ("-->>", ⟨.dotted, .arrow⟩),
    ("->>", ⟨.solid, .arrow⟩), ("--x", ⟨.dotted, .cross⟩), ("-x", ⟨.solid, .cross⟩),
    ("--)", ⟨.dotted, .unfilled⟩), ("-)", ⟨.solid, .unfilled⟩), ("-->", ⟨.dotted, .plain⟩),
    ("->", ⟨.solid, .plain⟩)]

/-- A text that can be the id of a participant. -/
structure IsParticipant (id : String) : Prop where
  ne_nil : id.toList ≠ []
  plain : ∀ c ∈ id.toList, isParticipantChar c = true

/-- A message as it is written on a line. -/
structure MessageLine where
  source : String
  token : String
  arrow : Arrow
  activation : Option Activation := none
  target : String
  label : String
  isSource : IsParticipant source
  drawn : (token, arrow) ∈ arrows
  isTarget : IsParticipant target
  trimmed : trim label = label
  inLine : ∀ c ∈ label.toList, c ≠ '\r' ∧ c ≠ '\n'

/-- The sign of what a message does to an activation. -/
def signOf : Option Activation → String
  | none => ""
  | some .start => "+"
  | some .stop => "-"

namespace MessageLine

/-- The document of the message. -/
def document (m : MessageLine) : String :=
  "sequenceDiagram\n" ++ (m.source ++ (m.token ++ (signOf m.activation ++ (m.target ++ (": " ++ m.label)))))

/-- The message itself. -/
def message (m : MessageLine) : Message where
  source := m.source
  target := m.target
  label := m.label
  arrow := m.arrow

/-- The diagram of the message. -/
def diagram (m : MessageLine) : Diagram where
  participants := (if m.source = m.target then [m.source] else [m.source, m.target]).map fun id =>
    { id, label := id }
  events := .message m.message ::
    match m.activation with
    | none => []
    | some .start => [.activate m.target]
    | some .stop => [.deactivate m.source]

/-- Whether the line begins with a keyword behind which anything may follow. -/
def overtaken (m : MessageLine) : Bool :=
  ["autonumber", "title"].any (hasKeyword · (m.source.toList ++ m.token.toList))

end MessageLine

/-! ## Characters of ids -/

/-- No character of an id is blank. -/
theorem not_isBlank_of_isParticipantChar {c : Char} (h : isParticipantChar c = true) : isBlank c = false :=
  Chars.not_isBlank_of_class (by decide +kernel) h

namespace IsParticipant

variable {id : String} {table : List (String × Rule)} {depth : Nat} {rest : List Char}

theorem not_isBlank (h : IsParticipant id) : ∀ c ∈ id.toList, isBlank c = false :=
  fun c hc => not_isBlank_of_isParticipantChar (h.plain c hc)

theorem trim_eq (h : IsParticipant id) : trim id = id := by
  rw [trim, Chars.trim_word h.ne_nil h.not_isBlank, String.ofList_toList]

/-- The first character of an id is one of an id. -/
theorem head (h : IsParticipant id) (rest : List Char) :
    ∃ c ∈ (id.toList ++ rest).head?, isParticipantChar c = true := by
  obtain ⟨first, cs, e⟩ := List.exists_cons_of_ne_nil h.ne_nil
  exact ⟨first, by rw [e]; rfl, h.plain first (by rw [e]; exact List.mem_cons_self)⟩

theorem takes (h : IsParticipant id) (hstop : ∀ c ∈ rest.head?, isParticipantChar c = false) :
    participantRule.Takes table depth id.toList rest fun _ => .items [] :=
  Rule.Takes.labelled (@takes_many1_chars _ _ _ _ (.satisfying isParticipantChar "participant character")
    h.ne_nil h.plain hstop) _

end IsParticipant

/-- A mark that no id holds is not the first character of a text that starts with one of an id. -/
theorem head_ne {text : List Char} (h : ∃ c ∈ text.head?, isParticipantChar c = true) {mark : Char}
    (hmark : isParticipantChar mark = false) : ∀ c ∈ text.head?, c ≠ mark := by
  obtain ⟨d, hd, plain⟩ := h
  rintro c hc rfl
  obtain rfl := Option.some.inj (hc.symm.trans hd)
  rw [plain] at hmark
  cases hmark

/-! ## The line of a message -/

section

variable {table : List (String × Rule)} {depth : Nat} {rest : List Char}

/-- Of several texts one is taken if those in front of it in the list do not begin what stands there. -/
theorem takes_literals {words : List String} {word : String} (hmem : word ∈ words)
    (h : words.Pairwise fun earlier word => ¬ earlier.toList <+: word.toList ++ rest) :
    (Rule.choice (words.map lit)).Takes table depth word.toList rest fun _ => .empty := by
  induction words with
  | nil => cases hmem
  | cons first words ih =>
    obtain ⟨hfirst, hwords⟩ := List.pairwise_cons.1 h
    obtain rfl | hmem := List.mem_cons.1 hmem
    · exact (takes_lit word rest).choice
    · exact (misses_lit (hfirst word hmem)).choice (ih hmem hwords)

/-- Only an arrowhead behind an arrow makes another one of it. -/
theorem takes_arrow {token : String} {arrow : Arrow} (h : (token, arrow) ∈ arrows)
    (hrest : ∀ c ∈ rest.head?, c ≠ '>') : arrowRule.Takes table depth token.toList rest fun _ => .empty := by
  have apart : (arrows.map Prod.fst).Pairwise fun earlier token => ¬ earlier.toList <+: token.toList ∧
      (token.toList <+: earlier.toList → (earlier.toList.drop token.toList.length).head? = some '>') := by
    decide
  refine Rule.Takes.labelled (takes_literals (List.mem_map_of_mem h) (apart.imp ?_)) _
  intro earlier token ⟨hshort, hlong⟩ hprefix
  obtain hprefix' | ⟨more, e⟩ := List.prefix_or_prefix_of_prefix hprefix (List.prefix_append token.toList rest)
  · exact hshort hprefix'
  · have head := hlong ⟨more, e⟩
    rw [← e, List.drop_left] at head
    obtain ⟨behind, rfl⟩ := List.head?_eq_some_iff.1 head
    rw [← e, List.prefix_append_right_inj] at hprefix
    obtain ⟨last, rfl⟩ := hprefix
    exact hrest '>' rfl rfl

/-- The field of a sign, if there is one. -/
def signTexts (activation : Option Activation) : List (String × String) :=
  match activation with
  | none => []
  | some _ => [("activation", signOf activation)]

theorem takes_sign (activation : Option Activation) (hrest : ∃ c ∈ rest.head?, isParticipantChar c = true) :
    ∃ leaves, (Rule.optional (.capture "activation" (oneOf "+-"))).Takes table depth
        (signOf activation).toList rest leaves ∧
      ∀ span offset, texts (.mk span (leaves offset).toFields) = signTexts activation := by
  have sign {c : Char} (hc : c = '+' ∨ c = '-') : (oneOf "+-").Takes table depth [c] rest fun _ => .empty :=
    takes_char (by obtain rfl | rfl := hc <;> rfl) rest
  match activation with
  | none =>
    refine ⟨_, Rule.Misses.optional ((misses_char fun c hc => ?_).capture _), fun _ _ => rfl⟩
    have hplus := @head_ne _ hrest '+' (by decide) c hc
    have hminus := @head_ne _ hrest '-' (by decide) c hc
    simp [CharClass.contains, hplus, hminus]
  | some .start =>
    have taken : (oneOf "+-").Takes table depth "+".toList rest fun _ => .empty := sign (.inl rfl)
    exact ⟨_, (taken.token rfl "activation").optional, fun _ _ => rfl⟩
  | some .stop =>
    have taken : (oneOf "+-").Takes table depth "-".toList rest fun _ => .empty := sign (.inr rfl)
    exact ⟨_, (taken.token rfl "activation").optional, fun _ _ => rfl⟩

/-- A label with blanks in front of it, behind a colon. -/
theorem takes_label {gap : List Char} {label : String} (hgap : ∀ c ∈ gap, c = ' ' ∨ c = '\t')
    (hlabel : ∀ c ∈ label.toList.head?, c ≠ ' ' ∧ c ≠ '\t') (inLine : ∀ c ∈ label.toList, c ≠ '\r' ∧ c ≠ '\n') :
    ∃ node : Nat → Node,
      (Rule.optional (.sequence [lit ":", ws, .capture "text" restOfLine])).Takes table depth
        (':' :: (gap ++ label.toList)) [] (fun offset => .fields [("text", node offset)]) ∧
      ∀ offset, (node offset).text = label := by
  have blanks : ws.Takes table depth gap (label.toList ++ []) fun _ => .items [] := by
    refine (takes_many_chars ?_ ?_).quiet
    · simpa [CharClass.contains] using hgap
    · simpa [CharClass.contains] using hlabel
  have text : restOfLine.Takes table depth label.toList [] fun _ => .items [] := takes_restOfLine inLine
  have labelled := blanks.skip rfl (text.token rfl "text").last
  exact ⟨_, ((takes_lit ":" _).skip rfl labelled).optional, fun _ => rfl⟩

/-- An arrow starts with a mark that no id holds. -/
theorem exists_head_of_drawn {token : String} {arrow : Arrow} (h : (token, arrow) ∈ arrows) :
    ∃ mark more, token.toList = mark :: more ∧ (mark = '-' ∨ mark = '<') := by
  have all : ∀ entry ∈ arrows, entry.1.toList.head? = some '-' ∨ entry.1.toList.head? = some '<' := by decide
  obtain head | head := all _ h <;> obtain ⟨more, e⟩ := List.head?_eq_some_iff.1 head
  · exact ⟨'-', more, e, .inl rfl⟩
  · exact ⟨'<', more, e, .inr rfl⟩

theorem trim_of_drawn {token : String} {arrow : Arrow} (h : (token, arrow) ∈ arrows) : trim token = token := by
  have all : ∀ entry ∈ arrows, entry.1.toList ≠ [] ∧ entry.1.toList.all (!isBlank ·) = true := by decide
  obtain ⟨hne, noBlank⟩ := all _ h
  rw [trim, Chars.trim_word hne (by simpa using noBlank), String.ofList_toList]

/-- Behind an arrow comes a sign or an id. -/
theorem head_signed (activation : Option Activation) (hrest : ∃ c ∈ rest.head?, isParticipantChar c = true) :
    ∀ c ∈ ((signOf activation).toList ++ rest).head?, c ≠ '>' ∧ c ≠ ' ' ∧ c ≠ '\t' := by
  match activation with
  | none =>
    intro c hc
    exact ⟨@head_ne _ hrest '>' (by decide) c hc, @head_ne _ hrest ' ' (by decide) c hc,
      @head_ne _ hrest '\t' (by decide) c hc⟩
  | some .start | some .stop =>
    rintro c ⟨⟩
    decide

theorem takes_message (m : MessageLine) {gap : List Char} (hgap : ∀ c ∈ gap, c = ' ' ∨ c = '\t')
    (hlabel : ∀ c ∈ m.label.toList.head?, c ≠ ' ' ∧ c ≠ '\t') :
    ∃ node : Nat → Tree,
      messageRule.Takes table depth (m.source.toList ++ (m.token.toList ++ ((signOf m.activation).toList ++
          (m.target.toList ++ ':' :: (gap ++ m.label.toList))))) []
        (fun offset => .fields [("message", .tree (node offset))]) ∧
      ∀ offset, texts (node offset) = ("from", m.source) :: ("arrow", m.token) ::
        (signTexts m.activation ++ [("to", m.target), ("text", m.label)]) := by
  obtain ⟨text, label, isText⟩ := @takes_label table depth gap m.label hgap hlabel m.inLine
  have target : participantRule.Takes table depth m.target.toList (':' :: (gap ++ m.label.toList) ++ [])
      fun _ => .items [] := m.isTarget.takes (by rintro c ⟨⟩; decide)
  have fromTarget := (target.token rfl "to").cons ((takes_ws_nil (by simp)).nilSkip rfl label.last)
  have targetHead : ∃ c ∈ (m.target.toList ++ ':' :: (gap ++ m.label.toList) ++ []).head?,
      isParticipantChar c = true := by
    rw [List.append_assoc]
    exact m.isTarget.head _
  obtain ⟨sign, signed, isSign⟩ := @takes_sign table depth _ m.activation targetHead
  have noBlank : ∀ c ∈ (m.target.toList ++ ':' :: (gap ++ m.label.toList) ++ []).head?, c ≠ ' ' ∧ c ≠ '\t' :=
    fun c hc => ⟨@head_ne _ targetHead ' ' (by decide) c hc, @head_ne _ targetHead '\t' (by decide) c hc⟩
  have fromSign := signed.cons ((takes_ws_nil noBlank).nilSkip rfl fromTarget)
  have signHead := head_signed m.activation targetHead
  rw [← List.append_assoc] at signHead
  have arrow := @takes_arrow table depth _ _ _ m.drawn fun c hc => (signHead c hc).1
  have fromArrow := (arrow.token rfl "arrow").cons
    ((takes_ws_nil fun c hc => (signHead c hc).2).nilSkip rfl fromSign)
  obtain ⟨mark, more, e, hmark⟩ := exists_head_of_drawn m.drawn
  have behindSource : ∀ c ∈ (m.token.toList ++ ((signOf m.activation).toList ++
      (m.target.toList ++ ':' :: (gap ++ m.label.toList))) ++ []).head?,
        isParticipantChar c = false ∧ c ≠ ' ' ∧ c ≠ '\t' := by
    rw [e]
    rintro c ⟨⟩
    obtain rfl | rfl := hmark <;> decide
  have source : participantRule.Takes table depth m.source.toList _ fun _ => .items [] :=
    m.isSource.takes fun c hc => (behindSource c hc).1
  have whole := (source.token rfl "from").cons
    ((takes_ws_nil fun c hc => (behindSource c hc).2).nilSkip rfl fromArrow)
  refine ⟨_, whole.capture "message", fun offset => ?_⟩
  have signTexts := isSign ⟨"", 0⟩ (offset + Chars.byteSize m.source.toList + Chars.byteSize m.token.toList)
  rw [texts] at signTexts ⊢
  simp only [Tree.fields, Fragment.toFields, List.cons_append, List.nil_append, List.map_cons, List.map_append,
    List.map_nil, isText] at signTexts ⊢
  rw [signTexts]
  rfl

end

/-! ## The other statements -/

/-- Whether a text goes on without a blank, a line end, a colon or a brace. -/
def Attached (text : List Char) : Prop := ∃ c ∈ text.head?, c ∉ [' ', '\t', '\r', '\n', '%', ':', '\x7b']

namespace Attached

variable {table : List (String × Rule)} {depth : Nat} {rules : List Rule} {text : List Char}

theorem head_ne (h : Attached text) {mark : Char} (hmark : mark ∈ [' ', '\t', '\r', '\n', '%', ':', '\x7b']) :
    ∀ c ∈ text.head?, c ≠ mark := by
  obtain ⟨d, hd, free⟩ := h
  rintro c hc rfl
  obtain rfl := Option.some.inj (hc.symm.trans hd)
  exact free hmark

theorem noBlank (h : Attached text) : ∀ c ∈ text.head?, c ≠ ' ' ∧ c ≠ '\t' :=
  fun c hc => ⟨h.head_ne (by simp) c hc, h.head_ne (by simp) c hc⟩

theorem misses_ws1 (h : Attached text) : (Rule.sequence (ws1 :: rules)).Misses table depth text :=
  (Peg.misses_ws1 h.noBlank).sequence

theorem misses_lit (h : Attached text) {word : String} {mark : Char} {more : List Char}
    (e : word.toList = mark :: more) (hmark : mark ∈ [' ', '\t', '\r', '\n', '%', ':', '\x7b']) :
    (lit word).Misses table depth text := by
  refine Peg.misses_lit ?_
  rw [e]
  rintro ⟨behind, rfl⟩
  exact h.head_ne hmark mark rfl rfl

theorem misses_ws_lit (h : Attached text) {word : String} {mark : Char} {more : List Char}
    (e : word.toList = mark :: more) (hmark : mark ∈ [' ', '\t', '\r', '\n', '%', ':', '\x7b']) :
    (Rule.sequence (ws :: lit word :: rules)).Misses table depth text :=
  (takes_ws_nil h.noBlank).nil_misses (h.misses_lit e hmark).sequence

theorem misses_eol (h : Attached text) : eol.Misses table depth text := by
  have percent : (lit "%%").Misses table depth text := h.misses_lit (show _ = ['%', '%'] from rfl) (by simp)
  have noComment : comment.Misses table depth text := percent.sequence
  have noNewline : newline.Misses table depth text := fun offset =>
    outcome_newline_of_inLine fun c hc => ⟨h.head_ne (by simp) c hc, h.head_ne (by simp) c hc⟩
  have noEnd : endOfInput.Misses table depth text := by
    intro offset
    rw [Option.eq_none_iff_forall_ne_some]
    rintro ⟨next, a⟩ hm
    obtain ⟨c, hc, -⟩ := h
    rw [show text = [] from (endOfInput_rest hm).2.2] at hc
    cases hc
  have stop : (Rule.sequence [.choice [newline, endOfInput]]).Misses table depth text :=
    (noNewline.or (noEnd.or misses_choice_nil)).sequence
  exact (takes_ws_nil h.noBlank).nil_misses ((noComment.optional.nil_misses stop).labelled _).sequence

end Attached

/-- A line that starts with an id and an arrow. -/
structure IsLine (id : String) (text : List Char) : Prop where
  isId : IsParticipant id
  goesOn : ∃ mark more, text = id.toList ++ mark :: more ∧ (mark = '-' ∨ mark = '<')
  inLine : ∀ c ∈ text, c ≠ '\r' ∧ c ≠ '\n'

namespace IsLine

variable {table : List (String × Rule)} {depth : Nat} {rules : List Rule} {id : String} {text : List Char}

theorem attached (h : IsLine id text) {found rest : List Char} (e : text = found ++ rest)
    (hfound : '-' ∉ found ∧ '<' ∉ found) : Attached rest := by
  obtain ⟨mark, more, rfl, hmark⟩ := h.goesOn
  have absent : mark ∉ found := by
    obtain rfl | rfl := hmark
    · exact hfound.1
    · exact hfound.2
  obtain ⟨behind, hid, rfl⟩ := exists_append_of_mark absent e
  cases behind with
  | nil => exact ⟨mark, rfl, by obtain rfl | rfl := hmark <;> decide⟩
  | cons c behind =>
    have plain := h.isId.plain c (hid ▸ List.mem_append_right _ List.mem_cons_self)
    have others : ∀ mark ∈ [' ', '\t', '\r', '\n', '%', ':', '\x7b'], isParticipantChar mark = false := by
      simp [isParticipantChar, isAlphanumeric]
    refine ⟨c, rfl, fun hmem => ?_⟩
    rw [others c hmem] at plain
    cases plain

/-- A statement that starts with a keyword. -/
theorem misses_headed (h : IsLine id text) {word : String} {anyCase : Bool}
    (plain : '-' ∉ word.toList.map Char.toLower ∧ '<' ∉ word.toList.map Char.toLower)
    (hs : ∀ rest, Attached rest → (Rule.sequence rules).Misses table depth rest) :
    (Rule.sequence (.sequence [.literal word anyCase, .notAhead wordChar] :: rules)).Misses table depth text := by
  refine Peg.misses_headed fun found rest hf e => hs rest (h.attached e ?_)
  rw [← hf.map_toLower] at plain
  exact ⟨fun hmem => plain.1 (List.mem_map_of_mem hmem), fun hmem => plain.2 (List.mem_map_of_mem hmem)⟩

/-- A participant is declared with a blank behind the keyword. -/
theorem misses_participant (h : IsLine id text) :
    (Rule.sequence (.capture "participant_kind" (.choice [keyword "participant", keyword "actor"]) :: ws1 ::
      rules)).Misses table depth text := by
  refine misses_of_first fun offset next a hm => ?_
  obtain ⟨word, hword, hs⟩ := @keywords_span _ _ _ _ _ _ ["participant", "actor"] hm
  have plain : ∀ word ∈ ["participant", "actor"], '-' ∉ word.toList ∧ '<' ∉ word.toList := by decide
  exact (h.attached hs.rest (plain word hword)).misses_ws1

/-- A block does not end on the line that it starts on. -/
theorem misses_block (h : IsLine id text) : blockRule.Misses table depth text := by
  have inText : '\n' ∉ text := fun hmem => (h.inLine _ hmem).2 rfl
  refine Rule.Misses.capture (misses_of_first fun offset kind a hkind => ?_) _
  have inKind := (outcome_reaches hkind).not_mem inText
  refine misses_of_first fun offset gap a hgap => ?_
  have inGap := (outcome_reaches hgap).not_mem inKind
  refine misses_of_first fun offset label a hlabel => ?_
  have inLabel := (outcome_reaches hlabel).not_mem inGap
  refine misses_of_first fun offset last a hlast => ?_
  -- nothing is left for the keyword at the end
  have atEnd := rest_eq_nil_of_eol hlast inLabel
  refine misses_of_first fun offset body a hbody => ?_
  have atEnd := (outcome_reaches hbody).rest_eq_nil atEnd
  refine misses_of_first fun offset branches a hbranches => ?_
  have atEnd := (outcome_reaches hbranches).rest_eq_nil atEnd
  refine misses_of_first fun offset gap a hgap => ?_
  rw [(outcome_reaches hgap).rest_eq_nil atEnd]
  exact fun _ => rfl

theorem misses_accessibility (h : IsLine id text) :
    (accessibility "acc_title" "acc_descr").Misses table depth text := by
  have noTitle {rules : List Rule} :
      (Rule.sequence (keyword "accTitle" :: ws :: lit ":" :: rules)).Misses table depth text :=
    h.misses_headed (by decide) fun rest hrest => hrest.misses_ws_lit (show _ = [':'] from rfl) (by simp)
  have noDescription : (Rule.sequence [keyword "accDescr", ws,
      .choice
        [.sequence [lit "\x7b", .capture "acc_descr" (textUntil "\x7d"), lit "\x7d"],
          .sequence [lit ":", ws, .capture "acc_descr" restOfLine]]]).Misses table depth text := by
    refine h.misses_headed (by decide) fun rest hrest => ?_
    have brace : (lit "\x7b").Misses table depth rest := hrest.misses_lit (show _ = ['\x7b'] from rfl) (by simp)
    have colon : (lit ":").Misses table depth rest := hrest.misses_lit (show _ = [':'] from rfl) (by simp)
    exact (takes_ws_nil hrest.noBlank).nil_misses
      (brace.sequence.or (colon.sequence.or misses_choice_nil)).sequence
  exact noTitle.or (noDescription.or misses_choice_nil)

/-- The statements that are tried first need a blank behind their keyword, or a line end before their end. -/
theorem takes_later {taken rest : List Char} {leaves : Nat → Fragment} (h : IsLine id (taken ++ rest))
    (hs : (Rule.choice [numberingRule, title "title", accessibility "acc_title" "acc_descr", messageRule]).Takes
      table depth taken rest leaves) : statementRule.Takes table depth taken rest leaves := by
  have headed {word field : String} {anyCase : Bool} {rules : List Rule}
      (plain : '-' ∉ word.toList.map Char.toLower ∧ '<' ∉ word.toList.map Char.toLower) :
      (Rule.capture field (.sequence (.sequence [.literal word anyCase, .notAhead wordChar] :: ws1 ::
        rules))).Misses table depth (taken ++ rest) :=
    (h.misses_headed plain fun _ hrest => hrest.misses_ws1).capture field
  exact ((h.misses_participant.capture "participant").choice <| (headed (by decide)).choice <|
    (headed (by decide)).choice <| (headed (by decide)).choice <| h.misses_block.choice hs).labelled _

theorem takes_message {leaves : Nat → Fragment} (h : IsLine id text)
    (free : ["autonumber", "title"].any (hasKeyword · text) = false)
    (hs : messageRule.Takes table depth text [] leaves) : statementRule.Takes table depth text [] leaves := by
  simp only [List.any_cons, List.any_nil, Bool.or_false, Bool.or_eq_false_iff] at free
  have noNumbering : numberingRule.Misses table depth text := ((misses_keyword free.1).sequence).capture _
  have noTitle : (title "title").Misses table depth text := (misses_keyword free.2).sequence
  have whole : IsLine id (text ++ []) := by rwa [List.append_nil]
  rw [← List.append_nil text] at noNumbering noTitle
  exact whole.takes_later (noNumbering.choice <| noTitle.choice <| whole.misses_accessibility.choice hs.choice)

/-- The rest of the line becomes a title. -/
theorem takes_title (h : IsLine id text) (free : hasKeyword "autonumber" text = false)
    (taken : hasKeyword "title" text = true) :
    ∃ caption : Nat → Node, statementRule.Takes table depth text [] fun offset =>
      .fields [("title", caption offset)] := by
  obtain ⟨rest, rfl, stop⟩ := hasKeyword_iff.1 taken
  obtain ⟨caption, title⟩ := @Peg.takes_title table depth rest "title" stop
    fun c hc => h.inLine c (List.mem_append_right _ hc)
  have whole : IsLine id ("title".toList ++ rest ++ []) := by rwa [List.append_nil]
  have noNumbering : numberingRule.Misses table depth ("title".toList ++ rest ++ []) := by
    rw [List.append_nil]
    exact ((misses_keyword free).sequence).capture _
  exact ⟨caption, whole.takes_later (noNumbering.choice title.choice)⟩

/-- The keyword is taken for a statement, which the rest of the line does not end. -/
theorem misses_numbered (h : IsLine id text) (taken : hasKeyword "autonumber" text = true) :
    (Rule.sequence [ws, .ref "statement", eol]).Misses grammar.rules (depth + 1) text := by
  obtain ⟨rest, rfl, stop⟩ := hasKeyword_iff.1 taken
  have attached := h.attached rfl (by decide)
  have noNumber : (Rule.sequence [ws1, .choice [.capture "off" (keyword "off"), .sequence
      [.capture "start" integer, .optional (.sequence [ws1, .capture "step" integer])]]]).Misses
        grammar.rules depth rest := attached.misses_ws1
  have word : (keyword "autonumber").Takes grammar.rules depth "autonumber".toList rest fun _ => .fields [] :=
    takes_keyword "autonumber" stop
  have numbering := (word.consNil noNumber.leaveOutLast).capture "autonumber"
  have statement := @Rule.Takes.ref _ _ _ _ _ _ "statement" rfl (h.takes_later numbering.choice)
  have start : Inked ("autonumber".toList ++ rest) := ⟨'a', by rfl, by decide⟩
  exact start.takes_ws.nil_misses (statement.misses attached.misses_eol.sequence)

end IsLine

/-! ## Documents -/

namespace MessageLine

variable (m : MessageLine)

/-- The line of the message, where `gap` stands behind the colon. -/
def line (m : MessageLine) (gap : List Char) : List Char :=
  m.source.toList ++ (m.token.toList ++ ((signOf m.activation).toList ++
    (m.target.toList ++ ':' :: (gap ++ m.label.toList))))

theorem isLine {gap : List Char} (hgap : ∀ c ∈ gap, c = ' ') : IsLine m.source (m.line gap) where
  isId := m.isSource
  goesOn := by
    obtain ⟨mark, more, e, hmark⟩ := exists_head_of_drawn m.drawn
    exact ⟨mark, _, by rw [line, e]; rfl, hmark⟩
  inLine := by
    have ofId {id : String} (h : IsParticipant id) : ∀ c ∈ id.toList, c ≠ '\r' ∧ c ≠ '\n' := by
      intro c hc
      have plain := h.not_isBlank c hc
      constructor <;> rintro rfl <;> cases plain
    have ofToken : ∀ entry ∈ arrows, ∀ c ∈ entry.1.toList, c ≠ '\r' ∧ c ≠ '\n' := by simp [arrows]
    have ofSign : ∀ c ∈ (signOf m.activation).toList, c ≠ '\r' ∧ c ≠ '\n' := by
      match m.activation with
      | none | some .start | some .stop => simp [signOf]
    intro c hc
    simp only [line, List.mem_append, List.mem_cons] at hc
    obtain hc | hc | hc | hc | rfl | hc | hc := hc
    · exact ofId m.isSource c hc
    · exact ofToken _ m.drawn c hc
    · exact ofSign c hc
    · exact ofId m.isTarget c hc
    · decide
    · rw [hgap c hc]
      decide
    · exact m.inLine c hc

theorem inked_line (gap : List Char) : Inked (m.line gap) := by
  obtain ⟨c, hc, plain⟩ := m.isSource.head _
  refine ⟨c, hc, fun hmem => ?_⟩
  have others : ∀ mark ∈ [' ', '\t', '\r', '\n', '%'], isParticipantChar mark = false := by
    simp [isParticipantChar, isAlphanumeric]
  rw [others c hmem] at plain
  cases plain

/-- The keywords of the line are those of the message. -/
theorem hasKeyword_line {word : String} (hword : '-' ∉ word.toList ∧ '<' ∉ word.toList) (gap : List Char) :
    hasKeyword word (m.line gap) = hasKeyword word (m.source.toList ++ m.token.toList) := by
  obtain ⟨mark, more, e, hmark⟩ := exists_head_of_drawn m.drawn
  have absent : mark ∉ word.toList := by
    obtain rfl | rfl := hmark
    · exact hword.1
    · exact hword.2
  rw [line, e]
  exact hasKeyword_of_mark absent

/-- A blank behind the colon is trimmed if there is no label. -/
theorem exists_gap (options : ParseOptions) : ∃ gap, (∀ c ∈ gap, c = ' ') ∧
    sourceOf options m.document = String.ofList ("sequenceDiagram".toList ++ (['\n'] ++ m.line gap)) := by
  have whole : m.document = String.ofList ("sequenceDiagram".toList ++ (['\n'] ++ m.line [' '])) := by
    simp [document, line, ← String.toList_inj]
  have front : "sequenceDiagram".toList ++ (['\n'] ++ m.line [' ']) = "sequenceDiagram".toList ++
      (['\n'] ++ (m.source.toList ++ (m.token.toList ++ ((signOf m.activation).toList ++ m.target.toList)))) ++
        ':' :: ([' '] ++ m.label.toList) := by
    simp [line]
  rw [sourceOf, whole, String.toList_ofList]
  by_cases htrim : options.trimTrailing = true
  · rw [if_pos htrim, front, Chars.trimEnd_append_of_not_blank _ rfl]
    have trimmed := (Chars.trim_eq_iff.1 (show Chars.trim m.label.toList = m.label.toList from
      String.ofList_inj.1 (m.trimmed.trans String.ofList_toList.symm))).2
    by_cases hlabel : m.label.toList = []
    · refine ⟨[], nofun, ?_⟩
      rw [hlabel, show Chars.trimEnd ([' '] ++ []) = [] from rfl]
      simp [line, hlabel]
    · refine ⟨[' '], by simp, ?_⟩
      rw [Chars.trimEnd_append_of_ne_nil _ (by rwa [trimmed]), trimmed]
      simp [line]
  · rw [if_neg htrim]
    exact ⟨[' '], by simp, rfl⟩

/-- The document has one statement, which is what the statement rule takes of the line. -/
theorem exists_statement {depth : Nat} {gap : List Char} {field : String} {node : Nat → Node}
    (h : statementRule.Takes grammar.rules depth (m.line gap) [] fun offset => .fields [(field, node offset)]) :
    ∃ t span offset,
      grammar.parse (depth + 1) (String.ofList ("sequenceDiagram".toList ++ (['\n'] ++ m.line gap))) = .ok t ∧
      t.list "statements" = [.mk span [(field, node offset)]] := by
  have statement := @Rule.Takes.ref _ _ _ _ _ _ "statement" rfl h
  obtain ⟨t, span, offset, parsed, statements⟩ := exists_round rfl ⟨'s', by rfl, by decide⟩
    (takes_headline "sequenceDiagram" _) rfl (m.inked_line gap) (m.inked_line gap).takes_ws statement fun _ => rfl
  rw [List.append_assoc] at parsed
  exact ⟨t, span, offset, parsed, statements⟩

/-- What is read from a document of one statement. -/
theorem read_of_statement {t : Tree} {tree : Tree} {statement : Statement} (hlist : t.list "statements" = [tree])
    (h : ∀ depth, (statements (readBody depth)).read tree = .ok statement) :
    read t = .ok (Diagram.apply 0 {} statement) := by
  obtain ⟨depth, height⟩ : ∃ depth, t.height = depth + 1 := by
    obtain ⟨span, fields⟩ := t
    exact ⟨_, rfl⟩
  have body : readBody (depth + 1) [tree] = .ok [statement] := readAll_cons (h depth) rfl
  rw [read, height, hlist, body]
  rfl

theorem apply_message : Diagram.apply 0 {} (.message m.message m.activation) = m.diagram := by
  have participants : Keyed.ensure (Keyed.ensure ([] : List Participant) { id := m.source, label := m.source })
      { id := m.target, label := m.target } =
        (if m.source = m.target then [m.source] else [m.source, m.target]).map fun id => { id, label := id } := by
    by_cases same : m.source = m.target <;>
      simp [Keyed.ensure, Keyed.add, Keyed.has, Keyed.id, Keyed.update, same]
  rw [Diagram.apply.eq_def, diagram, ← participants]
  cases m.activation with
  | none => rfl
  | some activation => cases activation <;> rfl

theorem read_message {t node : Tree} {span : Token}
    (hlist : t.list "statements" = [.mk span [("message", .tree node)]])
    (h : texts node = ("from", m.source) :: ("arrow", m.token) ::
      (signTexts m.activation ++ [("to", m.target), ("text", m.label)])) :
    read t = .ok m.diagram := by
  have source : (node.needText "from" : Reading Fallacy String) = .ok m.source :=
    needText_of_text? _ _ (text?_of_texts _ _ h rfl) m.isSource.trim_eq
  have arrow : (node.needText "arrow" : Reading Fallacy String) = .ok m.token :=
    needText_of_text? _ _ (text?_of_texts _ _ h rfl) (trim_of_drawn m.drawn)
  have drawn : Arrow.ofToken? m.token = some m.arrow := by
    have all : ∀ entry ∈ arrows, Arrow.ofToken? entry.1 = some entry.2 := by decide
    exact all _ m.drawn
  have target : (node.needText "to" : Reading Fallacy String) = .ok m.target :=
    needText_of_text? _ _ (text?_of_texts _ _ h (by cases m.activation <;> rfl)) m.isTarget.trim_eq
  have label : (node.filled? "text").getD "" = m.label := by
    have text : node.text? "text" = some m.label := text?_of_texts _ _ h (by cases m.activation <;> rfl)
    rw [Tree.filled?, Tree.trimmed?, text, Option.map_some, m.trimmed]
    by_cases empty : m.label = "" <;> simp [Option.filter, empty]
  have activation : (node.filled? "activation").bind activation? = m.activation := by
    have text : node.text? "activation" = m.activation.map fun _ => signOf m.activation :=
      text?_of_texts _ _ h (by cases m.activation <;> rfl)
    rw [Tree.filled?, Tree.trimmed?, text]
    rcases m.activation with _ | _ | _ <;> decide
  rw [← m.apply_message]
  refine read_of_statement hlist fun depth => (read_of_find? rfl).trans ?_
  dsimp only
  refine bind_eq_ok.2 ⟨node, rfl, bind_eq_ok.2 ⟨_, arrow, ?_⟩⟩
  rw [drawn]
  refine bind_eq_ok.2 ⟨_, rfl, bind_eq_ok.2 ⟨_, source, bind_eq_ok.2 ⟨_, target, ?_⟩⟩⟩
  rw [label, activation]
  rfl

/-- All that the diagram refers to is declared. -/
theorem declared_diagram : ∀ issue ∈ (⟨.sequence, m.diagram⟩ : Model).issues, issue.isDangling = false := by
  have source : m.diagram.hasParticipant m.source = true := by
    by_cases same : m.source = m.target <;> simp [Diagram.hasParticipant, Keyed.has, Keyed.id, diagram, same]
  have target : m.diagram.hasParticipant m.target = true := by
    by_cases same : m.source = m.target <;> simp [Diagram.hasParticipant, Keyed.has, Keyed.id, diagram, same]
  have unknown {context : String} {id : String} (h : m.diagram.hasParticipant id = true) :
      m.diagram.unknown context [id] = [] := by
    simp [Diagram.unknown, h]
  have message : m.diagram.unknown "message" [m.source, m.target] = [] := by
    simp [Diagram.unknown, source, target]
  have events : (m.diagram.eventIssues [] m.diagram.events).1.all (!·.isDangling) = true := by
    rw [show m.diagram.events = Event.message m.message :: _ from rfl]
    rcases m.activation with _ | _ | _
    · simp [Diagram.eventIssues, MessageLine.message, message]
    · simp [Diagram.eventIssues, MessageLine.message, message, unknown target]
    · simp [Diagram.eventIssues, MessageLine.message, message, unknown source, Issue.isDangling]
  have count : (Issue.ofCount m.diagram.participants.length).all (!·.isDangling) = true := by
    rw [Issue.ofCount]
    split <;> rfl
  intro issue hmem
  have hmem : issue ∈ m.diagram.issues := hmem
  simp only [Diagram.issues, List.mem_append, List.mem_map] at hmem
  simp only [List.all_eq_true, Bool.not_eq_true'] at events count
  obtain (hmem | hmem) | ⟨id, -, rfl⟩ := hmem
  · exact count issue hmem
  · exact events issue hmem
  · rfl

/-- What is in front of the label is not in the way of reading the message. -/
theorem head_label : ∀ c ∈ m.label.toList.head?, c ≠ ' ' ∧ c ≠ '\t' := by
  have trimmed := (Chars.trim_eq_iff.1 (show Chars.trim m.label.toList = m.label.toList from
    String.ofList_inj.1 (m.trimmed.trans String.ofList_toList.symm))).1
  intro c hc
  have noBlank := Chars.head_of_trimStart trimmed c hc
  constructor <;> rintro rfl <;> cases noBlank

/-- The keywords that overtake the message are those of its line. -/
theorem overtaken_line (gap : List Char) :
    ["autonumber", "title"].any (hasKeyword · (m.line gap)) = m.overtaken := by
  rw [overtaken]
  simp only [List.any_cons, List.any_nil, m.hasKeyword_line (show '-' ∉ "autonumber".toList ∧ _ by decide),
    m.hasKeyword_line (show '-' ∉ "title".toList ∧ _ by decide)]

/-- A line that begins with neither keyword is read as its message. -/
theorem parseAs_of_free (options : ParseOptions) (free : m.overtaken = false) :
    parseAs .all options .sequence m.document = .ok ⟨.sequence, m.diagram⟩ := by
  obtain ⟨gap, hgap, source⟩ := m.exists_gap options
  obtain ⟨node, message, isMessage⟩ := @takes_message grammar.rules options.nesting m gap
    (fun c hc => .inl (hgap c hc)) m.head_label
  obtain ⟨t, span, offset, parsed, statements⟩ :=
    m.exists_statement ((m.isLine hgap).takes_message (m.overtaken_line gap ▸ free) message)
  refine parseAs_eq_ok.2 ⟨t, m.diagram, ?_, m.read_message statements (isMessage offset),
    checkedModel_of_declared m.declared_diagram⟩
  rw [source]
  exact parsed

/-- A title is no message. -/
theorem read_title {t : Tree} {span : Token} {node : Node} {d : Diagram}
    (hlist : t.list "statements" = [.mk span [("title", node)]]) (h : read t = .ok d) : d.events = [] := by
  have caption (depth : Nat) : (statements (readBody depth)).read (.mk span [("title", node)]) =
      .ok (.caption (.title (trim node.text))) := (read_of_find? rfl).trans rfl
  rw [read_of_statement hlist caption, Diagram.apply.eq_def] at h
  rw [← Except.ok.inj h]

/-- A line that begins with one of the keywords is not read as its message. -/
theorem parseAs_of_overtaken (options : ParseOptions) (overtaken : m.overtaken = true) :
    parseAs .all options .sequence m.document ≠ .ok ⟨.sequence, m.diagram⟩ := by
  obtain ⟨gap, hgap, source⟩ := m.exists_gap options
  have isLine := m.isLine hgap
  rw [← m.overtaken_line gap] at overtaken
  intro h
  obtain ⟨t, content, parsed, isContent, checked⟩ := parseAs_eq_ok.1 h
  obtain rfl : m.diagram = content := Model.mk.inj (eq_of_checkedModel checked) |>.2 |> eq_of_heq
  rw [source] at parsed
  by_cases numbered : hasKeyword "autonumber" (m.line gap) = true
  · have round := (m.inked_line gap).misses_blankLine.or
      ((@IsLine.misses_numbered options.nesting _ _ isLine numbered).or misses_choice_nil)
    exact not_parsed_of_misses rfl ⟨'s', by rfl, by decide⟩ (takes_headline "sequenceDiagram" _) round
      (m.inked_line gap).ne_nil t parsed
  · have free : hasKeyword "autonumber" (m.line gap) = false := by simpa using numbered
    have titled : hasKeyword "title" (m.line gap) = true := by simpa [free] using overtaken
    obtain ⟨caption, statement⟩ := isLine.takes_title free titled
    obtain ⟨t', span, offset, parsed', statements⟩ := m.exists_statement statement
    obtain rfl : t = t' := Except.ok.inj (parsed.symm.trans parsed')
    have noEvent := read_title statements isContent
    cases noEvent

/-- The message is read back if and only if no keyword overtakes it. -/
theorem parseAs_iff (options : ParseOptions) :
    parseAs .all options .sequence m.document = .ok ⟨.sequence, m.diagram⟩ ↔ m.overtaken = false := by
  refine ⟨fun h => ?_, m.parseAs_of_free options⟩
  by_contra overtaken
  exact m.parseAs_of_overtaken options (Bool.not_eq_false _ ▸ overtaken) h

end MessageLine

end DiagramText.Sequence
