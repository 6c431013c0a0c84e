import DiagramText.Proofs.ClassDiagram.Associations
import DiagramText.Proofs.Peg.Quoted
import DiagramText.Proofs.Text.ContentLines
import DiagramText.Proofs.Text.Quoting

/-!
# Lines of relationships

A relationship is written on a line between two ends, each with a class, perhaps a cardinality, and perhaps a marker
(`Tie`). Blanks may stand between the parts or not (`Gaps`). The rule of relationships takes them one by one from the
left, and finds each part where it is as long as the parts stand apart (`Tie.Apart`): nothing continues the name of the
left class, and a circle is told from the letter of a word. Blanks around the operator are enough for that
(`Tie.apart_of_blanks`). Each end of the line has an ordered choice of its own for the markers (`takes_leftEnds`,
`takes_rightEnds`).

The lemmas for the parts are put together from the end of the line (`takes_behindOperator`, `takes_operator_found`,
`takes_front`) up to `takes_tie` for the whole of it.
-/

namespace DiagramText.ClassDiagram

open Peg Reading

/-! ## Ties -/

/-- What the line of a relationship may end with. -/
inductive Marker where
  | triangle | diamond | circle | arrow | lollipop
deriving DecidableEq

namespace Marker

/-- The marker at the left end of a line. -/
def left : Marker → String
  | triangle => "<|"
  | diamond => "*"
  | circle => "o"
  | arrow => "<"
  | lollipop => "()"

/-- The marker at the right end of a line. -/
def right : Marker → String
  | triangle => "|>"
  | diamond => "*"
  | circle => "o"
  | arrow => ">"
  | lollipop => "()"

/-- A marker says the same at either end. -/
theorem ofEnd_right (m : Marker) (dashed : Bool) :
    RelationshipKind.ofEnd (some m.right) dashed = RelationshipKind.ofEnd (some m.left) dashed := by
  cases m <;> cases dashed <;> rfl

end Marker

/-- Whether the rule of quoted strings, which refers to no other rule, takes the whole text. -/
def IsQuoted (text : String) : Prop :=
  ∃ tree, grammar.parseWithin 0 quotedString text = .ok tree

instance (text : String) : Decidable (IsQuoted text) :=
  decidable_of_iff ((grammar.parseWithin 0 quotedString text).toOption.isSome = true) (by
    simp only [IsQuoted, Option.isSome_iff_exists, toOption_eq_some])

/-- An end of a relationship: a class with its cardinality and the marker at its end of the line. -/
structure End where
  name : String
  cardinality : Option String
  marker : Option Marker
  isName : IsName name
  isQuoted : ∀ q ∈ cardinality, IsQuoted q

/-- A relationship as it is written: two ends, a line between them and a label. -/
structure Tie where
  left : End
  right : End
  dashed : Bool
  label : Option String
  inLine : ∀ s ∈ label, ∀ c ∈ s.toList, c ≠ '\r' ∧ c ≠ '\n'

/-- The blanks in a line: behind the left class and its cardinality, behind the line between the ends and the right
cardinality, and in front of the colon. -/
structure Gaps where
  left : List Char
  leftCardinality : List Char
  right : List Char
  rightCardinality : List Char
  label : List Char
  blank : ∀ gap ∈ [left, leftCardinality, right, rightCardinality, label], ∀ c ∈ gap, c = ' ' ∨ c = '\t'

namespace Tie

/-- The tie with its ends swapped. -/
def mirror (t : Tie) : Tie := { t with left := t.right, right := t.left }

/-- The line between the ends. -/
def stroke (t : Tie) : String := if t.dashed then ".." else "--"

/-- The marker at the left end, if there is one. -/
def leftEnd (t : Tie) : Option String := t.left.marker.map Marker.left

/-- The marker at the right end, if there is one. -/
def rightEnd (t : Tie) : Option String := t.right.marker.map Marker.right

/-- The line with its markers. -/
def operator (t : Tie) : String := t.leftEnd.getD "" ++ (t.stroke ++ t.rightEnd.getD "")

end Tie

/-- A cardinality and the blanks behind it, if there is one. -/
def cardinalityText (q : Option String) (gap : List Char) : List Char := q.elim [] (·.toList ++ gap)

/-- A label behind its colon, if there is one. -/
def labelText (label : Option String) (gap : List Char) : List Char := label.elim [] fun s => gap ++ ':' :: s.toList

namespace Tie

/-- What follows the line between the ends. -/
def behindOperator (t : Tie) (g : Gaps) : List Char :=
  g.right ++ (cardinalityText t.right.cardinality g.rightCardinality ++
    (t.right.name.toList ++ labelText t.label g.label))

/-- What follows the left class. -/
def behindLeft (t : Tie) (g : Gaps) : List Char :=
  g.left ++ (cardinalityText t.left.cardinality g.leftCardinality ++ (t.operator.toList ++ t.behindOperator g))

/-- The line of the tie. -/
def line (t : Tie) (g : Gaps) : List Char := t.left.name.toList ++ t.behindLeft g

end Tie

/-! ## The parts of the line -/

section

variable {table : List (String × Rule)} {depth : Nat} {rules : List Rule} {text more rest : List Char}
  {fields : Nat → List (String × Node)}

namespace IsQuoted

variable {q : String}

/-- A quoted text is taken whatever follows it. -/
theorem cases (h : IsQuoted q) : ∃ body, q.toList = '"' :: (body ++ ['"']) ∧
    ∀ table depth rest, quotedString.Takes table depth q.toList rest fun _ => .fields [] := by
  obtain ⟨tree, parsed⟩ := h
  obtain ⟨⟨stop, rest⟩, a, hm, hrest, -⟩ := parseWithin_eq_ok.1 parsed
  obtain rfl : rest = [] := hrest
  rw [Cursor.start, ← List.append_nil q.toList] at hm
  obtain ⟨body, e, -⟩ := @takes_quoted _ grammar.rules _ 0 _ _ _ _ _ hm
  exact ⟨body, e, fun table depth rest => (takes_quoted hm).choose_spec.2 rest⟩

theorem trim_eq (h : IsQuoted q) : trim q = q := by
  obtain ⟨body, e, -⟩ := h.cases
  have quoted := Chars.trim_quoted body
  rw [List.cons_append, ← e] at quoted
  rw [trim, quoted, String.ofList_toList]

theorem ne_empty (h : IsQuoted q) : q ≠ "" := by
  rintro rfl
  obtain ⟨body, e, -⟩ := h.cases
  cases e

end IsQuoted

/-- A cardinality that may be missing. -/
theorem takes_cardinality {q : Option String} (hq : ∀ s ∈ q, IsQuoted s) {gap : List Char}
    (hgap : ∀ c ∈ gap, c = ' ' ∨ c = '\t') (field : String) (inked : Inked (more ++ rest))
    (hmore : ∀ c ∈ (more ++ rest).head?, c ≠ '"')
    (hs : (Rule.sequence rules).Takes table depth more rest fun offset => .fields (fields offset)) :
    ∃ fields' : Nat → List (String × Node),
      (Rule.sequence (.optional (.sequence [.capture field quotedString, ws]) :: rules)).Takes table depth
        (cardinalityText q gap ++ more) rest (fun offset => .fields (fields' offset)) ∧
      ∀ offset, ∃ later, fields' offset = (q.map fun s => (field, .token ⟨s, offset⟩)).toList ++ fields later := by
  cases q with
  | none =>
    have none : (Rule.sequence [.capture field quotedString, ws]).Misses table depth (more ++ rest) :=
      ((misses_quotedString hmore).capture field).sequence
    exact ⟨fields, none.leaveOut hs, fun offset => ⟨offset, rfl⟩⟩
  | some s =>
    obtain ⟨-, -, takes⟩ := (hq s rfl).cases
    have token := (takes table depth (gap ++ (more ++ rest))).token rfl field
    have cardinality := token.cons ((inked.takes_blanks hgap).skipLast rfl)
    exact ⟨_, cardinality.optional.cons hs, fun offset => ⟨_, rfl⟩⟩

/-! ## The operator -/

/-- The markers at the left end, in the order in which they are tried. -/
def leftEnds : Rule := .choice [lit "<|", lit "*", lit "o", lit "<", lit "()"]

/-- The markers at the right end, in the order in which they are tried. -/
def rightEnds : Rule := .choice [lit "|>", lit "*", .sequence [lit "o", .notAhead word], lit ">", lit "()"]

theorem takes_leftEnds (m : Marker) (h : ∀ c ∈ rest.head?, c = '-' ∨ c = '.') :
    leftEnds.Takes table depth m.left.toList rest fun _ => .empty := by
  have noTriangle : (lit "<|").Misses table depth ('<' :: rest) := by
    refine misses_lit ?_
    rintro ⟨more, e⟩
    obtain rfl : '|' :: more = rest := (List.cons.inj e).2
    simpa using h '|' rfl
  cases m with
  | triangle => exact (takes_lit "<|" rest).choice
  | diamond => exact Rule.Misses.choice (fun _ => rfl) (takes_lit "*" rest).choice
  | circle =>
    exact Rule.Misses.choice (fun _ => rfl) <| Rule.Misses.choice (fun _ => rfl) (takes_lit "o" rest).choice
  | arrow =>
    exact Rule.Misses.choice noTriangle <| Rule.Misses.choice (fun _ => rfl) <|
      Rule.Misses.choice (fun _ => rfl) (takes_lit "<" rest).choice
  | lollipop =>
    exact Rule.Misses.choice (fun _ => rfl) <| Rule.Misses.choice (fun _ => rfl) <|
      Rule.Misses.choice (fun _ => rfl) <| Rule.Misses.choice (fun _ => rfl) (takes_lit "()" rest).choice

theorem misses_leftEnds (h : ∀ c ∈ rest.head?, c = '-' ∨ c = '.') : leftEnds.Misses table depth rest := by
  intro offset
  cases rest with
  | nil => rfl
  | cons c rest =>
    obtain rfl | rfl := h c rfl
    · rfl
    · rfl

/-- Whether a text begins with a circle that ends a line. A word may begin with its letter. -/
def StartsCircle (text : List Char) : Prop := ∃ more, text = 'o' :: more ∧ ∀ c ∈ more.head?, isWordChar c = false

instance : DecidablePred StartsCircle
  | [] => isFalse nofun
  | c :: more => decidable_of_iff (c = 'o' ∧ ∀ d ∈ more.head?, isWordChar d = false) (by
      simp only [StartsCircle, List.cons.injEq, and_assoc, exists_and_left, exists_eq_left'])

theorem takes_rightEnds (m : Marker) (h : m = .circle → ∀ c ∈ rest.head?, isWordChar c = false) :
    ∃ leaves, rightEnds.Takes table depth m.right.toList rest leaves := by
  cases m with
  | triangle => exact ⟨_, (takes_lit "|>" rest).choice⟩
  | diamond => exact ⟨_, Rule.Misses.choice (fun _ => rfl) (takes_lit "*" rest).choice⟩
  | circle =>
    have free : word.Misses table depth rest := (misses_many1_chars (h rfl)).labelled "word"
    have circle := (takes_lit "o" rest).skip rfl (free.notAhead.skipLast rfl)
    exact ⟨_, Rule.Misses.choice (fun _ => rfl) <| Rule.Misses.choice (fun _ => rfl) circle.choice⟩
  | arrow =>
    exact ⟨_, Rule.Misses.choice (fun _ => rfl) <| Rule.Misses.choice (fun _ => rfl) <|
      Rule.Misses.choice (fun _ => rfl) (takes_lit ">" rest).choice⟩
  | lollipop =>
    exact ⟨_, Rule.Misses.choice (fun _ => rfl) <| Rule.Misses.choice (fun _ => rfl) <|
      Rule.Misses.choice (fun _ => rfl) <| Rule.Misses.choice (fun _ => rfl) (takes_lit "()" rest).choice⟩

theorem misses_rightEnds (h : ∀ c ∈ rest.head?, c ∉ ['|', '*', '>', '(']) (noCircle : ¬ StartsCircle rest) :
    rightEnds.Misses table depth rest := by
  have mark {s : String} (hs : ∃ c ∈ ['|', '*', '>', '('], ∃ cs, s.toList = c :: cs) :
      (lit s).Misses table depth rest := by
    obtain ⟨c, hc, cs, e⟩ := hs
    refine misses_lit ?_
    rintro ⟨more, rfl⟩
    exact h c (by rw [e]; rfl) hc
  have circle : (Rule.sequence [lit "o", .notAhead word]).Misses table depth rest := by
    by_cases letter : ∃ more, rest = 'o' :: more
    · obtain ⟨more, rfl⟩ := letter
      obtain ⟨front, behind, cut⟩ : ∃ front behind, more.span isWordChar = (front, behind) := ⟨_, _, rfl⟩
      obtain ⟨rfl, plain, stop⟩ := Chars.span_eq_iff.1 cut
      have goesOn : front ≠ [] := by
        rintro rfl
        exact noCircle ⟨_, rfl, stop⟩
      exact (takes_lit "o" _).misses (takes_word goesOn plain stop).misses_notAhead.sequence
    · refine (misses_lit ?_).sequence
      rintro ⟨more, rfl⟩
      exact letter ⟨more, rfl⟩
  exact (mark ⟨'|', by decide, _, rfl⟩).or <| (mark ⟨'*', by decide, _, rfl⟩).or <| circle.or <|
    (mark ⟨'>', by decide, _, rfl⟩).or <| (mark ⟨'(', by decide, _, rfl⟩).or misses_choice_nil

/-- The texts of an operator. -/
def Tie.operatorTexts (t : Tie) : List (String × String) :=
  (t.leftEnd.map ("left_end", ·)).toList ++ ("line", t.stroke) :: (t.rightEnd.map ("right_end", ·)).toList

theorem operatorRule_eq : operatorRule = .labelled "relationship operator" (.capture "operator" (.sequence
    [.optional (.capture "left_end" leftEnds), .capture "line" (.choice [lit "--", lit ".."]),
      .optional (.capture "right_end" rightEnds)])) := rfl

/-- An operator with the marker that is found at its right end, whether or not it is the one that is meant. -/
theorem takes_operator_found (t : Tie) {found : Option String}
    (hsome : ∀ s ∈ found, ∃ leaves, rightEnds.Takes table depth s.toList rest leaves)
    (hnone : found = none → rightEnds.Misses table depth rest) :
    ∃ node : Nat → Tree,
      operatorRule.Takes table depth ((t.leftEnd.getD "").toList ++ (t.stroke.toList ++ (found.getD "").toList)) rest
        (fun offset => .fields [("operator", .tree (node offset))]) ∧
      ∀ offset, texts (node offset) =
          (t.leftEnd.map ("left_end", ·)).toList ++ ("line", t.stroke) :: (found.map ("right_end", ·)).toList ∧
        (Node.tree (node offset)).text =
          String.ofList ((t.leftEnd.getD "").toList ++ (t.stroke.toList ++ (found.getD "").toList)) := by
  have hsome : ∀ s ∈ found, ∃ leaves, rightEnds.Takes table depth s.toList ([] ++ rest) leaves := hsome
  have hnone (none : found = none) : rightEnds.Misses table depth ([] ++ rest) := hnone none
  obtain ⟨right, fromRight, isRight⟩ := takes_optionalToken rfl hsome hnone "right_end" (takes_sequence_nil rest)
  rw [List.append_nil] at fromRight
  have stroke : (Rule.choice [lit "--", lit ".."]).Takes table depth t.stroke.toList
      ((found.getD "").toList ++ rest) fun _ => .empty := by
    rw [Tie.stroke]
    cases t.dashed
    · exact (takes_lit "--" _).choice
    · exact Rule.Misses.choice (fun _ => rfl) (takes_lit ".." _).choice
  have fromStroke := (stroke.token rfl "line").cons fromRight
  have strokeHead : ∀ c ∈ (t.stroke.toList ++ (found.getD "").toList ++ rest).head?, c = '-' ∨ c = '.' := by
    rw [Tie.stroke]
    cases t.dashed <;> rintro c ⟨⟩ <;> decide
  have atLeft : ∀ s ∈ t.leftEnd, ∃ leaves, leftEnds.Takes table depth s.toList
      (t.stroke.toList ++ (found.getD "").toList ++ rest) leaves := by
    intro s hs
    obtain ⟨m, -, rfl⟩ := Option.map_eq_some_iff.1 hs
    exact ⟨_, takes_leftEnds m strokeHead⟩
  obtain ⟨left, fromLeft, isLeft⟩ :=
    takes_optionalToken rfl atLeft (fun _ => misses_leftEnds strokeHead) "left_end" fromStroke
  rw [operatorRule_eq]
  refine ⟨_, (fromLeft.tree (fun offset => ?_) "operator").labelled _, fun offset => ⟨?_, rfl⟩⟩
  · obtain ⟨later, e⟩ := isLeft offset
    rw [e]
    simp [Fragment.toFields]
  · obtain ⟨later, e⟩ := isLeft offset
    obtain ⟨last, e'⟩ := isRight (later + Chars.byteSize t.stroke.toList)
    rw [texts, Tree.fields, e, e']
    cases t.leftEnd <;> cases found <;> rfl

theorem toList_operator (t : Tie) :
    t.operator.toList = (t.leftEnd.getD "").toList ++ (t.stroke.toList ++ (t.rightEnd.getD "").toList) := by
  rw [Tie.operator, String.toList_append, String.toList_append]

/-- What is found at the right end of an operator: the marker that is meant, but for the circles. -/
theorem exists_found (t : Tie) (hrest : ∀ c ∈ rest.head?, c ∉ ['|', '*', '>', '(']) : ∃ found behind,
    (t.rightEnd.getD "").toList ++ rest = (found.getD "").toList ++ behind ∧
      (∀ s ∈ found, ∃ leaves, rightEnds.Takes table depth s.toList behind leaves) ∧
      (found = none → rightEnds.Misses table depth behind) ∧
      (found = t.rightEnd ↔
        (StartsCircle ((t.rightEnd.getD "").toList ++ rest) ↔ t.right.marker = some .circle)) := by
  by_cases starts : StartsCircle ((t.rightEnd.getD "").toList ++ rest)
  · obtain ⟨more, e, stop⟩ := id starts
    have circle : some "o" = t.rightEnd ↔ t.right.marker = some .circle := by
      rw [Tie.rightEnd]
      rcases t.right.marker with _ | m
      · decide
      · cases m <;> decide
    refine ⟨some "o", more, e, ?_, nofun, by simp only [starts, true_iff, circle]⟩
    rintro s ⟨⟩
    exact takes_rightEnds .circle fun _ => stop
  · simp only [starts, false_iff]
    by_cases circle : t.right.marker = some .circle
    · have letter : t.rightEnd = some "o" := by rw [Tie.rightEnd, circle]; rfl
      rw [letter] at starts ⊢
      refine ⟨none, _, rfl, nofun, fun _ => misses_rightEnds ?_ starts, by simp [circle]⟩
      rintro c ⟨⟩
      decide
    · refine ⟨t.rightEnd, rest, rfl, fun s hs => ?_, fun none => misses_rightEnds hrest ?_, by simp [circle]⟩
      · obtain ⟨m, hm, rfl⟩ := Option.map_eq_some_iff.1 hs
        exact takes_rightEnds m fun e => absurd (e ▸ hm) circle
      · rwa [none] at starts

/-! ## The line of a tie -/

/-- A cardinality begins with a quote. -/
theorem head_cardinality {q : Option String} (hq : ∀ s ∈ q, IsQuoted s) (gap more : List Char) :
    ∀ c ∈ (cardinalityText q gap ++ more).head?, c = '"' ∨ c ∈ more.head? := by
  intro c hc
  cases q with
  | none => exact .inr hc
  | some s =>
    obtain ⟨body, e, -⟩ := (hq s rfl).cases
    rw [cardinalityText, Option.elim_some, e] at hc
    exact .inl (Option.some.inj hc).symm

/-- What begins with blanks, if there are any. -/
theorem head_gap {gap : List Char} (hgap : ∀ c ∈ gap, c = ' ' ∨ c = '\t') (more : List Char) :
    ∀ c ∈ (gap ++ more).head?, (c = ' ' ∨ c = '\t') ∨ c ∈ more.head? := by
  intro c hc
  cases gap with
  | nil => exact .inr hc
  | cons b gap =>
    obtain rfl : b = c := Option.some.inj hc
    exact .inl (hgap b List.mem_cons_self)

/-- An operator begins with a marker or with the line. -/
theorem head_operator (t : Tie) (rest : List Char) :
    Inked (t.operator.toList ++ rest) ∧ ∀ c ∈ (t.operator.toList ++ rest).head?, c ≠ '"' ∧ c ≠ '~' := by
  obtain ⟨mark, head, hmark⟩ : ∃ c ∈ (t.operator.toList ++ rest).head?, c ∈ ['<', '*', 'o', '(', '-', '.'] := by
    rw [Tie.operator, Tie.leftEnd, Tie.stroke, String.toList_append, String.toList_append]
    cases t.left.marker with
    | none => cases t.dashed <;> exact ⟨_, rfl, by decide⟩
    | some m => cases m <;> exact ⟨_, rfl, by decide⟩
  have others : ∀ c ∈ ['<', '*', 'o', '(', '-', '.'], c ∉ [' ', '\t', '\r', '\n', '%'] ∧ c ≠ '"' ∧ c ≠ '~' := by decide
  refine ⟨⟨mark, head, (others mark hmark).1⟩, fun c hc => ?_⟩
  obtain rfl := Option.some.inj (hc.symm.trans head)
  exact (others c hmark).2

/-- Whether the parts of a line stand apart: no character continues the name of the left class, and there is a circle
at the right end of the operator if one is meant. -/
structure Tie.Apart (t : Tie) (g : Gaps) : Prop where
  name : ∀ c ∈ (t.behindLeft g).head?, isIdentChar c = false
  circle : StartsCircle ((t.rightEnd.getD "").toList ++ t.behindOperator g) ↔ t.right.marker = some .circle

instance (t : Tie) (g : Gaps) : Decidable (t.Apart g) :=
  decidable_of_iff (_ ∧ _) ⟨fun ⟨name, circle⟩ => ⟨name, circle⟩, fun ⟨name, circle⟩ => ⟨name, circle⟩⟩

/-- Parts with blanks around the operator stand apart. -/
theorem Tie.apart_of_blanks (t : Tie) {g : Gaps} (left : g.left ≠ []) (right : g.right ≠ []) : t.Apart g := by
  have head {gap more : List Char} (hne : gap ≠ []) (hgap : ∀ c ∈ gap, c = ' ' ∨ c = '\t') :
      ∀ c ∈ (gap ++ more).head?, c = ' ' ∨ c = '\t' := by
    obtain ⟨b, gap, rfl⟩ := List.exists_cons_of_ne_nil hne
    rintro c ⟨⟩
    exact hgap b List.mem_cons_self
  constructor
  · intro c hc
    obtain rfl | rfl := head left (g.blank _ (by simp)) c hc <;> rfl
  · have blank : ∀ c ∈ (t.behindOperator g).head?, c = ' ' ∨ c = '\t' := head right (g.blank _ (by simp))
    rw [Tie.rightEnd]
    cases t.right.marker with
    | none =>
      refine ⟨?_, nofun⟩
      rintro ⟨more, e, -⟩
      obtain h | h := blank 'o' (by rw [show t.behindOperator g = _ from e]; rfl) <;> cases h
    | some m =>
      cases m with
      | circle =>
        refine ⟨fun _ => rfl, fun _ => ⟨_, rfl, fun c hc => ?_⟩⟩
        obtain rfl | rfl := blank c hc <;> rfl
      | _ => exact ⟨fun ⟨_, e, _⟩ => absurd (List.cons.inj e).1 (by decide), nofun⟩

/-- Right in front of a name a circle is the first letter of that name. -/
example :
    let t : Tie :=
      ⟨⟨"Duck", none, none, ⟨'D', _, rfl, by decide, by decide⟩, nofun⟩,
        ⟨"Pond", none, some .circle, ⟨'P', _, rfl, by decide, by decide⟩, nofun⟩, false, none, nofun⟩
    let g : Gaps := ⟨[], [], [], [], [], by decide⟩
    String.ofList (t.line g) = "Duck--oPond" ∧ ¬ t.Apart g := by
  decide

/-- The texts that the rule of relationships captures. -/
def Tie.texts (t : Tie) : List (String × String) :=
  ("from", t.left.name) :: ((t.left.cardinality.map ("from_cardinality", ·)).toList ++ ("operator", t.operator) ::
    ((t.right.cardinality.map ("to_cardinality", ·)).toList ++ ("to", t.right.name) ::
      (t.label.map fun s => ("label", String.ofList (Chars.unindented s.toList))).toList))

/-- A label that may be missing. -/
theorem takes_label (t : Tie) {gap : List Char} (hgap : ∀ c ∈ gap, c = ' ' ∨ c = '\t') :
    ∃ fields : Nat → List (String × Node),
      (Rule.sequence [.optional (.sequence [ws, lit ":", ws, .capture "label" restOfLine])]).Takes table depth
        (labelText t.label gap) [] (fun offset => .fields (fields offset)) ∧
      ∀ offset, ∃ later, fields offset =
        (t.label.map fun s => ("label", Node.token ⟨String.ofList (Chars.unindented s.toList), later⟩)).toList := by
  cases h : t.label with
  | none => exact ⟨_, Rule.Misses.leaveOutLast fun _ => rfl, fun offset => ⟨offset, rfl⟩⟩
  | some s =>
    have free : ∀ c ∈ Chars.unindented s.toList, c ≠ '\r' ∧ c ≠ '\n' := fun c hc =>
      t.inLine s h c ((List.dropWhile_sublist _).mem hc)
    have fromLabel := ((@takes_restOfLine table depth _ free).tokenOf rfl "label").last
    have fromBlanks := (takes_blanks (@Chars.blank_of_mem_indentation s.toList)
      (by simpa using @Chars.head_unindented s.toList)).skip rfl fromLabel
    rw [Chars.indentation_append_unindented] at fromBlanks
    have fromColon := (takes_lit ":" _).skip rfl fromBlanks
    have whole := (takes_blanks hgap (by rintro c ⟨⟩; decide)).skip rfl fromColon
    exact ⟨_, whole.optional.last, fun offset => ⟨_, rfl⟩⟩

/-- What a line goes on with behind the right class. -/
theorem head_labelText {label : Option String} {gap : List Char} (hgap : ∀ c ∈ gap, c = ' ' ∨ c = '\t') :
    ∀ c ∈ (labelText label gap).head?, c ∈ [' ', '\t', ':'] := by
  intro c hc
  cases label with
  | none => cases hc
  | some s =>
    obtain (rfl | rfl) | hc := head_gap hgap _ c hc
    · decide
    · decide
    · obtain rfl := Option.some.inj hc
      decide

/-- The right end with its cardinality and the label. -/
theorem takes_behindOperator (t : Tie) (g : Gaps) : ∃ fields : Nat → List (String × Node),
    (Rule.sequence [ws, .optional (.sequence [.capture "to_cardinality" quotedString, ws]), .capture "to" nameRule,
        .optional genericRule, .optional (.sequence [ws, lit ":", ws, .capture "label" restOfLine])]).Takes table depth
      (t.behindOperator g) [] (fun offset => .fields (fields offset)) ∧
      ∀ offset, (fields offset).map (fun (field, node) => (field, node.text)) =
        (t.right.cardinality.map ("to_cardinality", ·)).toList ++ ("to", t.right.name) ::
          (t.label.map fun s => ("label", String.ofList (Chars.unindented s.toList))).toList := by
  obtain ⟨label, fromLabel, isLabel⟩ := @takes_label table depth t g.label (g.blank _ (by simp))
  have behindName : ∀ c ∈ (labelText t.label g.label ++ []).head?, c ∈ [' ', '\t', ':'] := by
    rw [List.append_nil]
    exact head_labelText (g.blank _ (by simp))
  have noGeneric : genericRule.Misses table depth (labelText t.label g.label ++ []) :=
    misses_generic fun c hc generic => absurd (generic ▸ behindName c hc) (by decide)
  have name : nameRule.Takes table depth t.right.name.toList (labelText t.label g.label ++ []) fun _ => .fields [] := by
    refine t.right.isName.takes fun c hc => ?_
    have others : ∀ c ∈ [' ', '\t', ':'], isIdentChar c = false := by decide
    exact others c (behindName c hc)
  have fromName := (name.token rfl "to").cons (noGeneric.leaveOut fromLabel)
  obtain ⟨fields, fromCardinality, isRight⟩ := takes_cardinality t.right.isQuoted
    (g.blank g.rightCardinality (by simp)) "to_cardinality"
    (by rw [List.append_assoc]; exact t.right.isName.inked _)
    (by rw [List.append_assoc]; exact t.right.isName.head_ne (by decide) _) fromName
  have stop : ∀ c ∈ (cardinalityText t.right.cardinality g.rightCardinality ++
      (t.right.name.toList ++ labelText t.label g.label) ++ []).head?, c ≠ ' ' ∧ c ≠ '\t' := by
    intro c hc
    rw [List.append_assoc] at hc
    obtain rfl | hc := head_cardinality t.right.isQuoted _ _ c hc
    · decide
    · rw [List.append_assoc] at hc
      exact ((t.right.isName.inked _).head c hc).1
  refine ⟨_, (takes_blanks (g.blank g.right (by simp)) stop).skip rfl fromCardinality, fun offset => ?_⟩
  obtain ⟨later, e⟩ := isRight (offset + Chars.byteSize g.right)
  obtain ⟨last, e'⟩ := isLabel (later + Chars.byteSize t.right.name.toList)
  rw [e, e']
  cases t.right.cardinality <;> cases t.label <;> rfl

/-- No marker but a circle is found in what follows an operator. -/
theorem head_behindOperator (t : Tie) (g : Gaps) : ∀ c ∈ (t.behindOperator g).head?, c ∉ ['|', '*', '>', '('] := by
  intro c hc
  obtain (rfl | rfl) | hc := head_gap (g.blank g.right (by simp)) _ c hc
  · decide
  · decide
  · obtain rfl | hc := head_cardinality t.right.isQuoted _ _ c hc
    · decide
    · have other {mark : Char} (hmark : isIdentStart mark = false) : c ≠ mark := t.right.isName.head_ne hmark _ c hc
      simp only [List.mem_cons, List.not_mem_nil, or_false, not_or]
      exact ⟨other (by decide), other (by decide), other (by decide), other (by decide)⟩

/-- The left end of a line in front of what begins like an operator. -/
theorem takes_front (t : Tie) (g : Gaps) (inked : Inked (more ++ rest))
    (head : ∀ c ∈ (more ++ rest).head?, c ≠ '"' ∧ c ≠ '~')
    (name : ∀ c ∈ (g.left ++ (cardinalityText t.left.cardinality g.leftCardinality ++ (more ++ rest))).head?,
      isIdentChar c = false)
    (hs : (Rule.sequence rules).Takes table depth more rest fun offset => .fields (fields offset)) :
    ∃ fields' : Nat → List (String × Node),
      (Rule.sequence (.capture "from" nameRule :: .optional genericRule :: ws ::
          .optional (.sequence [.capture "from_cardinality" quotedString, ws]) :: rules)).Takes table depth
        (t.left.name.toList ++ (g.left ++ (cardinalityText t.left.cardinality g.leftCardinality ++ more))) rest
        (fun offset => .fields (fields' offset)) ∧
      ∀ offset, ∃ start later, fields' offset = ("from", .token ⟨t.left.name, offset⟩) ::
        ((t.left.cardinality.map fun s => ("from_cardinality", .token ⟨s, start⟩)).toList ++ fields later) := by
  obtain ⟨left, fromLeft, isLeft⟩ := takes_cardinality t.left.isQuoted (g.blank g.leftCardinality (by simp))
    "from_cardinality" inked (fun c hc => (head c hc).1) hs
  have stop : ∀ c ∈ (cardinalityText t.left.cardinality g.leftCardinality ++ (more ++ rest)).head?,
      (c ≠ ' ' ∧ c ≠ '\t') ∧ c ≠ '~' := by
    intro c hc
    obtain rfl | hc := head_cardinality t.left.isQuoted _ _ c hc
    · decide
    · exact ⟨(inked.head c hc).1, (head c hc).2⟩
  rw [← List.append_assoc] at stop
  have fromGap := (takes_blanks (g.blank g.left (by simp)) fun c hc => (stop c hc).1).skip rfl fromLeft
  have noGeneric : genericRule.Misses table depth
      (g.left ++ (cardinalityText t.left.cardinality g.leftCardinality ++ more) ++ rest) := by
    refine misses_generic fun c hc => ?_
    rw [List.append_assoc] at hc
    obtain (rfl | rfl) | hc := head_gap (g.blank g.left (by simp)) _ c hc
    · decide
    · decide
    · exact (stop c hc).2
  have name : nameRule.Takes table depth t.left.name.toList
      (g.left ++ (cardinalityText t.left.cardinality g.leftCardinality ++ more) ++ rest) fun _ => .fields [] := by
    rw [List.append_assoc, List.append_assoc]
    exact t.left.isName.takes name
  exact ⟨_, (name.token rfl "from").cons (noGeneric.leaveOut fromGap), fun offset =>
    ⟨_, _, congrArg (("from", Node.token ⟨t.left.name, offset⟩) :: ·) (isLeft _).choose_spec⟩⟩

/-- The rule of relationships takes the line of a tie whose parts stand apart. -/
theorem takes_tie (t : Tie) {g : Gaps} (apart : t.Apart g) : ∃ node : Nat → Tree,
    relationRule.Takes table depth (t.line g) [] (fun offset => .fields [("relation", .tree (node offset))]) ∧
      ∀ offset, texts (node offset) = t.texts ∧
        ∃ operator, (node offset).tree? "operator" = some operator ∧ texts operator = t.operatorTexts := by
  obtain ⟨right, fromRight, isRight⟩ := @takes_behindOperator table depth t g
  obtain ⟨found, behind, e, hsome, hnone, exact⟩ :=
    @exists_found table depth (t.behindOperator g) t (head_behindOperator t g)
  obtain rfl : found = t.rightEnd := exact.2 apart.circle
  obtain rfl : t.behindOperator g = behind := List.append_cancel_left e
  obtain ⟨operator, isOperator, operatorTexts⟩ := takes_operator_found t hsome hnone
  rw [← toList_operator, ← List.append_nil (t.behindOperator g)] at isOperator
  rw [← toList_operator, String.ofList_toList] at operatorTexts
  obtain ⟨inked, head⟩ := head_operator t (t.behindOperator g ++ [])
  rw [← List.append_assoc] at inked head
  obtain ⟨fields, whole, isWhole⟩ := takes_front t g inked head
    (by rw [List.append_nil]; exact apart.name) (isOperator.cons fromRight)
  have filled (offset : Nat) : fields offset ≠ [] := by
    obtain ⟨start, later, e⟩ := isWhole offset
    exact e ▸ List.cons_ne_nil _ _
  refine ⟨_, whole.tree filled "relation", fun offset => ?_⟩
  obtain ⟨start, later, e⟩ := isWhole offset
  rw [e]
  refine ⟨?_, operator later, ?_, (operatorTexts later).1⟩
  · simp only [texts, Tree.fields, Fragment.toFields, List.map_append, List.map_cons, List.map_nil, isRight,
      (operatorTexts later).2, Tie.texts]
    cases t.left.cardinality <;> rfl
  · cases t.left.cardinality <;> rfl

end

end DiagramText.ClassDiagram
