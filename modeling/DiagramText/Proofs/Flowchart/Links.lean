import DiagramText.Flowchart.Document
import DiagramText.Proofs.Flowchart.Arrows
import DiagramText.Proofs.Parse
import DiagramText.Proofs.Peg.LineWise
import DiagramText.Proofs.Peg.Outline

/-!
# Links

The rule of links tries an arrow without a label inside first and takes as much of it as there is. So it takes the
whole token of an arrow, in which shorter tokens lie, and it takes what opens an arrow with a label only when that is
no arrow by itself. What a label begins with matters for that: behind a line the character of a head ends an arrow,
and what would have been the rest of the label is read as a node. `link_shows_arrow` says for both kinds of arrows
which ones are read back.
-/

namespace DiagramText.Flowchart

open Peg

/-- Whether an arrow ends in front of a text: with its head, or because the text does not go on like an arrow. -/
def Head.Ends (h : Head) (rest : List Char) : Prop :=
  h = .none → ∀ c ∈ rest.head?, c ∉ ['-', '=', '.', '>', 'o', 'x']

theorem Head.Ends.apart {rest : List Char} (hrest : Head.none.Ends rest) {c : Char}
    (hc : c ∈ ['-', '=', '.', '>', 'o', 'x']) : ∀ d ∈ rest.head?, d ≠ c :=
  fun d hd same => hrest rfl d hd (same ▸ hc)

theorem Head.Ends.bare {rest : List Char} (hrest : Head.none.Ends rest) : ∀ d ∈ rest.head?, d ∉ ['>', 'o', 'x'] :=
  fun d hd point => hrest rfl d hd (List.mem_append_right ['-', '=', '.'] point)

/-! ## Heads and lines -/

section

variable {table : List (String × Rule)} {depth n : Nat} {text rest : List Char} {s : String} {c : Char}

theorem takes_mark {set : String} {point : Char} (hset : set.toList = [point, 'o', 'x']) (h : Head)
    (hrest : h = .none → ∀ c ∈ rest.head?, c ∉ set.toList) :
    (Rule.optional (oneOf set)).Takes table depth (h.mark point) rest fun _ => .empty := by
  cases h with
  | none => exact (misses_char fun c hc => by simpa [CharClass.contains] using hrest rfl c hc).optional
  | _ => exact (takes_char (by simp [CharClass.contains, hset]) rest).optional

theorem toList_dash : "-".toList = ['-'] := rfl

theorem toList_equals : "=".toList = ['='] := rfl

theorem toList_two (hs : s.toList = [c]) : (s ++ s).toList = [c, c] := by
  rw [String.toList_append, hs]
  rfl

theorem toList_three (hs : s.toList = [c]) : (s ++ s ++ s).toList = [c, c, c] := by
  rw [String.toList_append, toList_two hs, hs]
  rfl

theorem misses_head (hrest : ∀ d ∈ rest.head?, d ∉ ['>', 'o', 'x']) : headRule.Misses table depth rest :=
  misses_char fun d hd => by simpa [CharClass.contains] using hrest d hd

/-- The line of an arrow ends with its head, or where it does not go on. -/
theorem takes_line (hs : s.toList = [c]) (hc : c ∈ ['-', '=']) (h : Head) (hn : 1 ≤ n) (hrest : h.Ends rest) :
    (Rule.choice (lineRules s)).Takes table depth (h.line c n) rest fun _ => .fields [] := by
  obtain ⟨n, rfl⟩ := Nat.exists_eq_add_of_le' hn
  have pointed {d : Char} (hd : d ∈ ['>', 'o', 'x']) :
      (Rule.choice (lineRules s)).Takes table depth (List.replicate (n + 1 + 1) c ++ [d]) rest fun _ => .fields [] := by
    have differs : ∀ e ∈ ([d] ++ rest).head?, e ≠ c := by
      rintro e ⟨⟩ rfl
      exact (by simp : ∀ c ∈ ['-', '='], c ∉ ['>', 'o', 'x']) d hc hd
    have head : headRule.Takes table depth [d] rest fun _ => .empty :=
      takes_char (by simpa [CharClass.contains] using hd) rest
    have line := (takes_many_lit hs differs n).skip rfl (head.skipLast rfl)
    exact ((takes_lit_of (toList_two hs)).skip rfl line).choice
  cases h with
  | none =>
    have own : c ∈ ['-', '=', '.', '>', 'o', 'x'] := List.mem_append_left ['.', '>', 'o', 'x'] hc
    have same : Head.none.line c (n + 1) = [c, c, c] ++ List.replicate n c := (List.replicate_succ' ..).symm
    have plain : (Rule.sequence [lit (s ++ s ++ s), many (lit s)]).Takes table depth (Head.none.line c (n + 1)) rest
        fun _ => .fields [] :=
      same ▸ (takes_lit_of (toList_three hs)).skip rfl ((takes_many_lit hs (hrest.apart own) n).skipLast rfl)
    have noPoint : (Rule.sequence [lit (s ++ s), many (lit s), headRule]).Misses table depth
        ([c, c] ++ (List.replicate (n + 1) c ++ rest)) :=
      (takes_lit_of (toList_two hs)).misses
        ((takes_many_lit hs (hrest.apart own) (n + 1)).misses (misses_head hrest.bare).sequence)
    exact Rule.Misses.choice (same ▸ noPoint) plain.choice
  | arrow => exact pointed (by decide)
  | circle => exact pointed (by decide)
  | cross => exact pointed (by decide)

theorem misses_line (hs : s.toList = [c]) (h : ¬ [c, c] <+: text) :
    (Rule.choice (lineRules s)).Misses table depth text := by
  refine (misses_lit (by rwa [toList_two hs])).sequence.or ((misses_lit ?_).sequence.or misses_choice_nil)
  rw [toList_three hs]
  exact fun more => h ((List.prefix_append [c, c] [c]).trans more)

/-- What goes on after two characters with neither a third one nor a head is no line. -/
theorem misses_line_start (hs : s.toList = [c]) (apart : ∀ d ∈ rest.head?, d ≠ c)
    (bare : ∀ d ∈ rest.head?, d ∉ ['>', 'o', 'x']) :
    (Rule.choice (lineRules s)).Misses table depth ([c, c] ++ rest) := by
  have noPoint : (Rule.sequence [many (lit s), headRule]).Misses table depth ([] ++ rest) :=
    (takes_many_lit hs apart 0).misses (misses_head bare).sequence
  refine ((takes_lit_of (toList_two hs)).misses noPoint).or ((misses_lit ?_).sequence.or misses_choice_nil)
  rw [toList_three hs, show [c, c, c] = [c, c] ++ [c] from rfl, List.prefix_append_right_inj]
  rintro ⟨more, rfl⟩
  exact apart c rfl rfl

/-- What is behind the dots of an arrow. -/
theorem takes_lastDash (h : Head) (hrest : h.Ends rest) :
    (Rule.sequence [lit "-", .optional headRule]).Takes table depth ('-' :: h.mark '>') rest fun _ => .fields [] :=
  (takes_lit "-" (h.mark '>' ++ rest)).skip rfl ((takes_mark rfl h fun bare => (bare ▸ hrest).bare).skipLast rfl)

end

/-! ## Arrows without a label inside -/

section

variable {table : List (String × Rule)} {depth : Nat} {rest : List Char} {a : Arrow}

/-- Dots with a dash at either end. -/
def dotsRule : Rule := .sequence [lit "-.", many (lit "."), lit "-", .optional headRule]

/-- The rules for the lines of arrows. -/
def strokeRules : List Rule :=
  lineRules "-" ++ [dotsRule] ++ lineRules "=" ++ [.sequence [lit "~~~", many (lit "~")]]

theorem takes_strokes (ha : a.IsDrawn) (hrest : a.head.Ends rest) :
    (Rule.choice strokeRules).Takes table depth a.body rest fun _ => .fields [] := by
  obtain ⟨stroke, head, tail, length⟩ := a
  obtain ⟨hstroke, hlength⟩ := ha
  cases stroke with
  | solid =>
    have line : (Rule.choice (lineRules "-")).Takes table depth (head.line '-' length) rest fun _ => .fields [] :=
      takes_line toList_dash (by decide) head hlength hrest
    exact ((line.choiceAppend _).choiceAppend _).choiceAppend _
  | dashed =>
    obtain ⟨n, rfl⟩ := Nat.exists_eq_add_of_le' hlength
    have dots : dotsRule.Takes table depth
        (['-', '.'] ++ (List.replicate n '.' ++ '-' :: head.mark '>')) rest fun _ => .fields [] :=
      (takes_lit_of rfl).skip rfl ((takes_many_lit rfl (by simp) n).skip rfl (takes_lastDash head hrest))
    have noLine : (Rule.choice (lineRules "-")).Misses table depth
        (['-', '.'] ++ (List.replicate n '.' ++ '-' :: head.mark '>') ++ rest) := misses_line toList_dash (by simp)
    exact ((noLine.choiceAppend dots.choice).choiceAppend _).choiceAppend _
  | thick =>
    have line : (Rule.choice (lineRules "=")).Takes table depth (head.line '=' length) rest fun _ => .fields [] :=
      takes_line toList_equals (by decide) head hlength hrest
    have begins : head.line '=' length ++ rest = '=' :: (head.line '=' length ++ rest).tail := rfl
    have noLine : (Rule.choice (lineRules "-")).Misses table depth (head.line '=' length ++ rest) :=
      begins ▸ misses_line toList_dash (by simp)
    have noDots : (lit "-.").Misses table depth (head.line '=' length ++ rest) := begins ▸ misses_lit (by simp)
    exact ((noLine.orAppend (noDots.sequence.or misses_choice_nil)).choiceAppend line).choiceAppend _
  | invisible => exact absurd rfl hstroke

theorem takes_tail (h : Head) (hrest : ∀ c ∈ rest.head?, c ∉ ['<', 'o', 'x']) :
    tailRule.Takes table depth (h.mark '<') rest fun _ => .empty :=
  takes_mark rfl h fun _ => hrest

theorem head_start (a : Arrow) (rest : List Char) : ∀ c ∈ (a.start ++ rest).head?, c ∉ ['<', 'o', 'x'] := by
  obtain ⟨stroke, head, tail, length⟩ := a
  cases stroke
  all_goals
    rintro c ⟨⟩
    decide

/-- A line begins as it does in front of a label. -/
theorem exists_start_append (ha : a.IsDrawn) : ∃ more, a.body = a.start ++ more := by
  obtain ⟨stroke, head, tail, length⟩ := a
  obtain ⟨n, rfl⟩ := Nat.exists_eq_add_of_le' ha.2
  cases stroke <;> exact ⟨_, rfl⟩

/-- The token of an arrow is taken as a whole, since the line goes on as far as it can. -/
theorem takes_plainArrow (ha : a.IsDrawn) (hrest : a.head.Ends rest) :
    plainArrowRule.Takes table depth a.token rest fun offset =>
      .fields [("arrow", .token ⟨String.ofList a.token, offset⟩)] := by
  have strokes : (Rule.choice strokeRules).Takes table depth _ rest _ := takes_strokes ha hrest
  have begins : ∀ c ∈ (a.body ++ rest).head?, c ∉ ['<', 'o', 'x'] := by
    obtain ⟨more, e⟩ := exists_start_append ha
    rw [e, List.append_assoc]
    exact head_start a (more ++ rest)
  have whole : (Rule.sequence [tailRule, .choice strokeRules]).Takes table depth a.token rest fun _ => .fields [] :=
    (takes_tail a.tail begins).skip rfl (strokes.skipLast rfl)
  exact whole.tokenOf rfl "arrow"

/-- What an arrow begins with in front of a label is no arrow by itself, unless the label goes on like one. -/
theorem misses_strokes (ha : a.IsDrawn) (undrawn : ∀ c ∈ rest.head?, c ∉ ['-', '=', '.'])
    (bare : a.stroke = .dashed ∨ ∀ c ∈ rest.head?, c ∉ ['>', 'o', 'x']) :
    (Rule.choice strokeRules).Misses table depth (a.start ++ rest) := by
  have unlike (c : Char) (hc : c ∈ ['-', '=', '.']) : ∀ d ∈ rest.head?, d ≠ c :=
    fun d hd same => undrawn d hd (same ▸ hc)
  -- Which of the four kinds of lines could come depends on the first two characters.
  suffices h : (Rule.choice (lineRules "-")).Misses table depth (a.start ++ rest) ∧
      dotsRule.Misses table depth (a.start ++ rest) ∧
      (Rule.choice (lineRules "=")).Misses table depth (a.start ++ rest) ∧
      (lit "~~~").Misses table depth (a.start ++ rest) from
    ((h.1.orAppend (h.2.1.or misses_choice_nil)).orAppend h.2.2.1).orAppend (h.2.2.2.sequence.or misses_choice_nil)
  obtain ⟨stroke, head, tail, length⟩ := a
  cases stroke with
  | solid =>
    exact ⟨misses_line_start toList_dash (unlike '-' (by decide)) (bare.resolve_left (by simp)),
      (misses_lit (by simp [Arrow.start])).sequence, misses_line toList_equals (by simp [Arrow.start]),
      misses_lit (by simp [Arrow.start])⟩
  | dashed =>
    have noDash : (lit "-").Misses table depth rest := misses_lit (by
      rintro ⟨more, rfl⟩
      exact unlike '-' (by decide) '-' rfl rfl)
    have noDots : (Rule.sequence [many (lit "."), lit "-", .optional headRule]).Misses table depth ([] ++ rest) :=
      (takes_many_lit rfl (unlike '.' (by decide)) 0).misses noDash.sequence
    exact ⟨misses_line toList_dash (by simp [Arrow.start]), (takes_lit_of rfl).misses noDots,
      misses_line toList_equals (by simp [Arrow.start]), misses_lit (by simp [Arrow.start])⟩
  | thick =>
    exact ⟨misses_line toList_dash (by simp [Arrow.start]), (misses_lit (by simp [Arrow.start])).sequence,
      misses_line_start toList_equals (unlike '=' (by decide)) (bare.resolve_left (by simp)),
      misses_lit (by simp [Arrow.start])⟩
  | invisible => exact absurd rfl ha.1

theorem misses_plainArrow (ha : a.IsDrawn) (undrawn : ∀ c ∈ rest.head?, c ∉ ['-', '=', '.'])
    (bare : a.stroke = .dashed ∨ ∀ c ∈ rest.head?, c ∉ ['>', 'o', 'x']) :
    plainArrowRule.Misses table depth (a.opening ++ rest) := by
  have noStroke : (Rule.choice strokeRules).Misses table depth (a.start ++ rest) := misses_strokes ha undrawn bare
  rw [Arrow.opening, List.append_assoc]
  exact Rule.Misses.capture ((takes_tail a.tail (head_start a rest)).misses noStroke.sequence) "arrow"

end

/-! ## Labels inside of arrows -/

/-- Whether a text can be a label inside of an arrow: it is on one line, and no line is drawn in it. -/
structure IsLabel (label : List Char) : Prop where
  ne_nil : label ≠ []
  undrawn : ∀ c ∈ label, c ∉ ['-', '=', '.']
  inLine : ∀ c ∈ label, c ∉ ['\r', '\n']

/-- A character of a label, in front of what stops it. -/
def labelChar (stop : Rule) : Rule := .sequence [.notAhead stop, noneOf "\r\n"]

/-- What an arrow with a label inside captures. -/
def Arrow.splitFields (a : Arrow) (label : List Char) (offset : Nat) : List (String × DiagramText.Node) :=
  [("arrow_open", .token ⟨String.ofList a.opening, offset⟩),
    ("edge_label", .token ⟨String.ofList label, offset + Chars.byteSize a.opening⟩),
    ("arrow", .token ⟨String.ofList a.closing, offset + Chars.byteSize a.opening + Chars.byteSize label⟩)]

section

variable {table : List (String × Rule)} {depth : Nat} {label rest : List Char} {a : Arrow} {stop closing : Rule}
  {opening : String}

/-- A label goes on up to what stops it. -/
theorem takes_label (quiet : stop.capturesNone = true) (h : IsLabel label)
    (goes : ∀ c ∉ ['-', '=', '.'], ∀ more, stop.Misses table depth (c :: more))
    (stops : (labelChar stop).Misses table depth rest) :
    (many1 (labelChar stop)).Takes table depth label rest fun _ => .items [] := by
  have one (c : Char) (hc : c ∈ label) (more : List Char) :
      (labelChar stop).Takes table depth [c] more fun _ => .fields [] := by
    have char : (noneOf "\r\n").Takes table depth [c] more fun _ => .empty :=
      takes_char (by simpa [CharClass.contains] using h.inLine c hc) more
    exact (goes c (h.undrawn c hc) more).notAhead.nilSkip quiet (char.skipLast rfl)
  have all (cs : List Char) (hcs : ∀ c ∈ cs, c ∈ label) :
      (many (labelChar stop)).Takes table depth cs rest fun _ => .items [] := by
    induction cs with
    | nil => exact stops.many
    | cons c cs ih =>
      obtain ⟨hc, hcs⟩ := List.forall_mem_cons.1 hcs
      exact (one c hc (cs ++ rest)).many (List.cons_ne_nil c []) (ih hcs)
  obtain ⟨c, cs, rfl⟩ := List.exists_cons_of_ne_nil h.ne_nil
  exact (one c List.mem_cons_self (cs ++ rest)).many1 (List.cons_ne_nil c [])
    (all cs fun d hd => List.mem_cons_of_mem c hd)

/-- An arrow with a label inside is taken in three parts. -/
theorem takes_splitArrow (hopening : opening.toList = a.start) (h : IsLabel label)
    (quietStop : stop.capturesNone = true) (goes : ∀ c ∉ ['-', '=', '.'], ∀ more, stop.Misses table depth (c :: more))
    (stops : (labelChar stop).Misses table depth (a.closing ++ rest))
    (quiet : closing.capturesNone = true) (hclosing : closing.Takes table depth a.closing rest fun _ => .fields []) :
    (splitArrowRule opening stop closing).Takes table depth (a.opening ++ (label ++ a.closing)) rest fun offset =>
      .fields (a.splitFields label offset) := by
  have opens : (Rule.sequence [tailRule, lit opening]).Takes table depth a.opening (label ++ a.closing ++ rest)
      fun _ => .fields [] :=
    (takes_tail a.tail (head_start a _)).skip rfl ((takes_lit_of hopening).skipLast rfl)
  have text : (Rule.quiet (many1 (labelChar stop))).Takes table depth label
      (a.closing ++ rest) fun _ => .items [] := (takes_label quietStop h goes stops).quiet
  have textQuiet : (Rule.quiet (many1 (labelChar stop))).capturesNone = true := by
    simp [labelChar, many1, noneOf, Rule.capturesNone, Rule.capturesNoneAll, quietStop]
  have behind := (text.tokenOf textQuiet "edge_label").cons (hclosing.tokenOf quiet "arrow").last
  exact (opens.tokenOf rfl "arrow_open").cons behind

theorem misses_splitArrow {text : List Char} (h : ¬ opening.toList <+: a.start ++ (text ++ rest)) :
    (splitArrowRule opening stop closing).Misses table depth (a.opening ++ text ++ rest) := by
  have noOpening : (lit opening).Misses table depth (a.start ++ (text ++ rest)) := misses_lit h
  rw [Arrow.opening, List.append_assoc, List.append_assoc]
  exact Rule.Misses.sequence
    (Rule.Misses.capture ((takes_tail a.tail (head_start a _)).misses noOpening.sequence) "arrow_open")

/-- A line that is cut in two by a label. -/
theorem takes_splitLine {s : String} {c : Char} (hs : s.toList = [c]) (hc : c ∈ ['-', '='])
    (hopening : opening.toList = [c, c]) (hstart : a.start = [c, c]) (hclosing : a.closing = a.head.line c a.length)
    (hlength : 1 ≤ a.length) (h : IsLabel label) (hrest : a.head.Ends rest) :
    (splitArrowRule opening (lit opening) (.choice (lineRules s))).Takes table depth
      (a.opening ++ (label ++ a.closing)) rest fun offset => .fields (a.splitFields label offset) := by
  have line : (Rule.choice (lineRules s)).Takes table depth a.closing rest fun _ => .fields [] :=
    hclosing ▸ takes_line hs hc a.head hlength hrest
  have goes (d : Char) (hd : d ∉ ['-', '=', '.']) (more : List Char) :
      (lit opening).Misses table depth (d :: more) := by
    refine misses_lit ?_
    rw [hopening, List.cons_prefix_cons]
    rintro ⟨rfl, -⟩
    exact hd (List.mem_append_left ['.'] hc)
  obtain ⟨n, hn⟩ := Nat.exists_eq_add_of_le' hlength
  have begins : a.closing ++ rest = [c, c] ++ (a.closing ++ rest).drop 2 := by
    rw [hclosing, hn]
    rfl
  have stops : (lit opening).Takes table depth [c, c] ((a.closing ++ rest).drop 2) fun _ => .empty :=
    takes_lit_of hopening
  exact takes_splitArrow (hopening.trans hstart.symm) h rfl goes (begins ▸ stops.misses_notAhead.sequence) rfl line

/-- Dots that are cut in two by a label. -/
theorem takes_splitDots (dashed : a.stroke = .dashed) (hlength : 1 ≤ a.length) (h : IsLabel label)
    (hrest : a.head.Ends rest) :
    (splitArrowRule "-." (.sequence [many1 (lit "."), lit "-"])
      (.sequence [many1 (lit "."), lit "-", .optional headRule])).Takes table depth
      (a.opening ++ (label ++ a.closing)) rest fun offset => .fields (a.splitFields label offset) := by
  obtain ⟨stroke, head, tail, length⟩ := a
  obtain rfl : stroke = .dashed := dashed
  have dots (more : List Char) (hmore : ∀ c ∈ more.head?, c ≠ '.') :
      (many1 (lit ".")).Takes table depth (List.replicate length '.') more fun _ => .items [] :=
    takes_many1_lit rfl hmore hlength
  have goes (d : Char) (hd : d ∉ ['-', '=', '.']) (more : List Char) :
      (Rule.sequence [many1 (lit "."), lit "-"]).Misses table depth (d :: more) := by
    refine Rule.Misses.sequence (Rule.Misses.many1 (misses_lit fun hprefix => ?_))
    obtain ⟨rfl, -⟩ := List.cons_prefix_cons.1 hprefix
    exact hd (by decide)
  have stop : (Rule.sequence [many1 (lit "."), lit "-"]).Takes table depth (List.replicate length '.' ++ ['-'])
      (head.mark '>' ++ rest) fun _ => .fields [] :=
    (dots _ (by simp)).skip rfl ((takes_lit_of rfl).skipLast rfl)
  have stops : (labelChar (.sequence [many1 (lit "."), lit "-"])).Misses table depth
      (Arrow.closing ⟨.dashed, head, tail, length⟩ ++ rest) := by
    have shape : Arrow.closing ⟨.dashed, head, tail, length⟩ ++ rest =
        List.replicate length '.' ++ ['-'] ++ (head.mark '>' ++ rest) := by simp [Arrow.closing]
    exact shape ▸ stop.misses_notAhead.sequence
  exact takes_splitArrow rfl h rfl goes stops rfl ((dots _ (by simp)).skip rfl (takes_lastDash head hrest))

/-- An arrow with a label inside is a link, unless the label goes on like an arrow. -/
theorem takes_splitLink (ha : a.IsDrawn) (h : IsLabel label)
    (bare : a.stroke = .dashed ∨ ∀ c ∈ label.head?, c ∉ ['>', 'o', 'x']) (hrest : a.head.Ends rest) :
    linkRule.Takes table depth (a.opening ++ (label ++ a.closing)) rest fun offset =>
      .fields (a.splitFields label offset) := by
  have noPlain : plainArrowRule.Misses table depth (a.opening ++ (label ++ a.closing) ++ rest) := by
    obtain ⟨c, cs, rfl⟩ := List.exists_cons_of_ne_nil h.ne_nil
    rw [List.append_assoc]
    exact misses_plainArrow ha (fun d hd => h.undrawn d (Option.some.inj hd ▸ List.mem_cons_self)) bare
  suffices split : (Rule.choice [splitArrowRule "--" (lit "--") (.choice (lineRules "-")),
      splitArrowRule "-." (.sequence [many1 (lit "."), lit "-"])
        (.sequence [many1 (lit "."), lit "-", .optional headRule]),
      splitArrowRule "==" (lit "==") (.choice (lineRules "="))]).Takes table depth
        (a.opening ++ (label ++ a.closing)) rest fun offset => .fields (a.splitFields label offset) from
    (noPlain.sequence.choice split.choice).labelled "arrow"
  cases stroke : a.stroke with
  | solid =>
    have start : a.start = ['-', '-'] := by rw [Arrow.start, stroke]
    have closing : a.closing = a.head.line '-' a.length := by rw [Arrow.closing, stroke]
    exact (takes_splitLine toList_dash (by decide) rfl start closing ha.2 h hrest).choice
  | dashed =>
    have start : a.start = ['-', '.'] := by rw [Arrow.start, stroke]
    have noLine : ¬ "--".toList <+: a.start ++ (label ++ a.closing ++ rest) := by simp [start]
    exact (misses_splitArrow noLine).choice (takes_splitDots stroke ha.2 h hrest).choice
  | thick =>
    have start : a.start = ['=', '='] := by rw [Arrow.start, stroke]
    have closing : a.closing = a.head.line '=' a.length := by rw [Arrow.closing, stroke]
    have noLine : ¬ "--".toList <+: a.start ++ (label ++ a.closing ++ rest) := by simp [start]
    have noDots : ¬ "-.".toList <+: a.start ++ (label ++ a.closing ++ rest) := by simp [start]
    have split : (splitArrowRule "==" (lit "==") (.choice (lineRules "="))).Takes table depth
        (a.opening ++ (label ++ a.closing)) rest fun offset => .fields (a.splitFields label offset) :=
      takes_splitLine toList_equals (by decide) rfl start closing ha.2 h hrest
    exact (misses_splitArrow noLine).choice ((misses_splitArrow noDots).choice split.choice)
  | invisible => exact absurd stroke ha.1

end

/-! ## Links -/

/-- The label in bars that may stand behind an arrow. -/
def barLabelRule : Rule :=
  .optional (.sequence [ws, lit "|", .capture "edge_label" (textUntil "|\r\n"), lit "|"])

/-- What the label of an arrow says: nothing if it is blank. -/
def labelText (label : List Char) : Option String :=
  if Chars.trim label = [] then none else some (unquote (String.ofList (Chars.trim label)))

/-- Whether the fields of a link show an arrow with a label, whatever the link leads to. -/
def Shows (fields : List (String × DiagramText.Node)) (a : Arrow) (label : Option String) : Prop :=
  ∀ span target, linkOf (.mk span (fields ++ [("target", target)])) =
    (groupOf (.mk span [("target", target)]) "target").map fun targets => ⟨a, label, targets⟩

section

variable {table : List (String × Rule)} {depth : Nat} {rest : List Char} {a : Arrow}

/-- The arrow of a link is its whole token, and only a label in bars belongs to the link as well. -/
theorem outcome_link (ha : a.IsDrawn) (hrest : a.head.Ends rest) (offset : Nat) :
    ∃ next bar, barLabelRule.outcome table depth ⟨offset + Chars.byteSize a.token, rest⟩ = some (next, bar) ∧
      linkRule.outcome table depth ⟨offset, a.token ++ rest⟩ =
        some (next, .fields (("arrow", .token ⟨String.ofList a.token, offset⟩) :: bar.toFields)) := by
  obtain ⟨⟨next, bar⟩, hbar⟩ : ∃ found, barLabelRule.outcome table depth ⟨offset + Chars.byteSize a.token, rest⟩ =
      some found := ⟨_, outcome_optional _ _⟩
  have whole : (Rule.sequence [plainArrowRule, barLabelRule]).outcome table depth ⟨offset, a.token ++ rest⟩ =
      some (next, .append (.fields [("arrow", .token ⟨String.ofList a.token, offset⟩)]) (bar.append .empty)) :=
    sequence_cons_eq_some.2
      ⟨_, _, _, takes_plainArrow ha hrest offset, sequence_singleton_eq_some.2 ⟨bar, hbar, rfl⟩, rfl⟩
  refine ⟨next, bar, hbar, ?_⟩
  rw [linkRule, outcome_labelled, outcome_choice_cons, ← barLabelRule, whole, Option.some_or]
  simp [Fragment.append, Fragment.toFields, Fragment.empty]

/-- The characters that arrows are drawn with. -/
def arrowChars : List Char := ['-', '=', '.', '<', '>', 'o', 'x']

theorem closing_subset (a : Arrow) : a.closing ⊆ arrowChars := by
  rw [Arrow.closing]
  split
  · refine List.append_subset.2 ⟨fun c hc => ?_, List.cons_subset.2 ⟨by decide, ?_⟩⟩
    · rw [List.eq_of_mem_replicate hc]
      decide
    · exact List.Subset.trans (a.head.mark_subset '>') (by decide)
  · exact List.Subset.trans (a.head.line_subset '=' a.length) (by decide)
  · exact List.Subset.trans (a.head.line_subset '-' a.length) (by decide)

theorem tail_subset (a : Arrow) : a.tail.mark '<' ⊆ arrowChars :=
  List.Subset.trans (a.tail.mark_subset '<') (by decide)

theorem opening_subset (a : Arrow) : a.opening ⊆ arrowChars := by
  refine List.append_subset.2 ⟨tail_subset a, ?_⟩
  rw [Arrow.start]
  split <;> decide

theorem token_subset (a : Arrow) : a.token ⊆ arrowChars := by
  refine List.append_subset.2 ⟨tail_subset a, List.append_subset.2 ⟨?_, closing_subset a⟩⟩
  split <;> decide

theorem closing_ne_nil (a : Arrow) : a.closing ≠ [] := by
  rw [Arrow.closing]
  split <;> simp [Head.line]

theorem opening_ne_nil (a : Arrow) : a.opening ≠ [] := by
  rw [Arrow.opening, Arrow.start]
  split <;> simp

theorem token_ne_nil (a : Arrow) : a.token ≠ [] := by simp [Arrow.token, Arrow.body, closing_ne_nil a]

/-- The characters of arrows are not blank. -/
theorem trim_drawn {cs : List Char} (hne : cs ≠ []) (h : cs ⊆ arrowChars) :
    trim (String.ofList cs) = String.ofList cs := by
  rw [trim, String.toList_ofList, Chars.trim_word hne fun c hc => ?_]
  exact (by simp [arrowChars, isBlank] : ∀ c ∈ arrowChars, isBlank c = false) c (h hc)

/-- What a link leads to changes nothing else of it. -/
theorem get?_target (span : Token) (fields : List (String × DiagramText.Node)) (target : DiagramText.Node)
    {field : String} (h : field ≠ "target") :
    (Tree.mk span (fields ++ [("target", target)])).get? field = (Tree.mk span fields).get? field := by
  rw [Tree.get?, Tree.get?, Tree.fields, Tree.fields, List.lookup_append]
  simp [List.lookup_cons, beq_eq_false_iff_ne.2 h]

theorem filled?_target (span : Token) (fields : List (String × DiagramText.Node)) (target : DiagramText.Node)
    {field : String} (h : field ≠ "target") :
    (Tree.mk span (fields ++ [("target", target)])).filled? field = (Tree.mk span fields).filled? field := by
  rw [Tree.filled?, Tree.trimmed?, Tree.text?, get?_target span fields target h]
  rfl

/-- Fields show the arrow of their tokens and the label that stands in them. -/
theorem shows_of_lookup {fields : List (String × DiagramText.Node)} {token : Token} {label : Option String}
    (harrow : fields.lookup "arrow" = some (.token token)) (htarget : fields.lookup "target" = none)
    (reads : ∀ span, Arrow.ofToken ((Tree.mk span fields).filled? "arrow_open") (trim token.text) = a)
    (hlabel : ∀ span, (Tree.mk span fields).string? "edge_label" = label) : Shows fields a label := by
  intro span target
  have text : (Tree.mk span (fields ++ [("target", target)])).get? "arrow" = some (.token token) :=
    (get?_target span fields target (by decide)).trans harrow
  have opening := filled?_target span fields target (show "arrow_open" ≠ "target" by decide)
  have inside := filled?_target span fields target (show "edge_label" ≠ "target" by decide)
  have found : (Tree.mk span (fields ++ [("target", target)])).get? "target" = some target := by
    rw [Tree.get?, Tree.fields, List.lookup_append, htarget]
    rfl
  have group : groupOf (Tree.mk span (fields ++ [("target", target)])) "target" =
      groupOf (Tree.mk span [("target", target)]) "target" := by
    rw [groupOf, groupOf, Tree.needGroup, Tree.needGroup, Tree.need, Tree.need, found]
    rfl
  rw [linkOf, Tree.needText, Tree.need, text, group, opening, Tree.string?, inside, ← Tree.string?, hlabel span,
    ← reads span]
  cases groupOf (Tree.mk span [("target", target)]) "target" <;> rfl

/-- A label in bars behind an arrow does not change what arrow it is. -/
theorem exists_shows_bar (ha : a.IsDrawn) {cur next : Cursor} {bar : Fragment}
    (h : barLabelRule.outcome table depth cur = some (next, bar)) (offset : Nat) :
    ∃ label, Shows (("arrow", .token ⟨String.ofList a.token, offset⟩) :: bar.toFields) a label := by
  have only : ∀ field node, (field, node) ∈ bar.toFields → field = "edge_label" := by
    intro field node hfield
    obtain ⟨o, ho, fits⟩ := exists_fits barLabelRule bar.toFields ⟨depth, cur, next, bar, h, rfl⟩
    have within : (barLabelRule.outlinesIn table).all (·.within ["edge_label"]) = true := rfl
    exact List.mem_singleton.1 (fits.mem_of_within (List.all_eq_true.1 within o ho) hfield)
  have others (field : String) (hfield : field ≠ "edge_label") : bar.toFields.lookup field = none := by
    refine List.lookup_eq_none_iff.2 fun entry hentry => ?_
    rw [only entry.1 entry.2 hentry]
    exact bne_iff_ne.2 hfield
  refine ⟨(Tree.mk ⟨"", 0⟩ bar.toFields).string? "edge_label", shows_of_lookup rfl ?_ (fun span => ?_) fun span => ?_⟩
  · exact others "target" (by decide)
  · have absent : (Tree.mk span (("arrow", .token ⟨String.ofList a.token, offset⟩) :: bar.toFields)).get?
        "arrow_open" = none := others "arrow_open" (by decide)
    rw [Tree.filled?, Tree.trimmed?, Tree.text?, absent, trim_drawn (token_ne_nil a) (token_subset a)]
    exact Arrow.ofToken_token ha
  · rfl

theorem shows_split (ha : a.IsDrawn) (label : List Char) (offset : Nat) :
    Shows (a.splitFields label offset) a (labelText label) := by
  refine shows_of_lookup rfl rfl (fun span => ?_) fun span => ?_
  · have opening : (Tree.mk span (a.splitFields label offset)).filled? "arrow_open" =
        some (String.ofList a.opening) := by
      have trimmed : (Tree.mk span (a.splitFields label offset)).trimmed? "arrow_open" =
          some (trim (String.ofList a.opening)) := rfl
      rw [Tree.filled?, trimmed, trim_drawn (opening_ne_nil a) (opening_subset a)]
      simp [Option.filter, opening_ne_nil a]
    rw [opening, trim_drawn (closing_ne_nil a) (closing_subset a)]
    exact Arrow.ofToken_opening ha
  · have trimmed : (Tree.mk span (a.splitFields label offset)).trimmed? "edge_label" =
        some (trim (String.ofList label)) := rfl
    rw [Tree.string?, Tree.filled?, trimmed, labelText, trim, String.toList_ofList]
    by_cases blank : Chars.trim label = []
    · simp [Option.filter, blank]
    · simp [Option.filter, blank]

/-- What opens an arrow with a line is an arrow with a head if the label begins like one. -/
theorem token_of_head {h : Head} (hh : h ≠ .none) (ha : a.IsDrawn) (line : a.stroke ≠ .dashed) :
    Arrow.token ⟨a.stroke, h, a.tail, 1⟩ = a.opening ++ h.mark '>' := by
  obtain ⟨stroke, head, tail, length⟩ := a
  cases stroke with
  | dashed => exact absurd rfl line
  | invisible => exact absurd rfl ha.1
  | _ => simp [Arrow.token, Arrow.body, Arrow.opening, Arrow.start, Arrow.closing, Head.line, hh, List.replicate_succ]

theorem exists_mark {c : Char} (hc : c ∈ ['>', 'o', 'x']) : ∃ h : Head, h ≠ .none ∧ h.mark '>' = [c] := by
  simp only [List.mem_cons, List.not_mem_nil, or_false] at hc
  rcases hc with rfl | rfl | rfl
  · exact ⟨.arrow, nofun, rfl⟩
  · exact ⟨.circle, nofun, rfl⟩
  · exact ⟨.cross, nofun, rfl⟩

/-- Where a text begins with the token of an arrow, no label is read inside an arrow. -/
theorem not_takes_of_token {b : Arrow} (hb : b.IsDrawn) {label more : List Char} (ends : b.head.Ends (more ++ rest))
    (same : a.opening ++ (label ++ a.closing) = b.token ++ more) :
    ¬ linkRule.Takes table depth (a.opening ++ (label ++ a.closing)) rest fun offset =>
      .fields (a.splitFields label offset) := by
  intro split
  obtain ⟨next, bar, -, plain⟩ := @outcome_link table depth _ _ hb ends 0
  rw [← List.append_assoc, ← same, split 0] at plain
  simp [Arrow.splitFields] at plain

/-- A link is never read past the head of a plain arrow, even where the head is meant to begin a label. -/
theorem bare_of_takes_split {label : List Char} (ha : a.IsDrawn)
    (split : linkRule.Takes table depth (a.opening ++ (label ++ a.closing)) rest fun offset =>
      .fields (a.splitFields label offset)) :
    a.stroke = .dashed ∨ ∀ c ∈ label.head?, c ∉ ['>', 'o', 'x'] := by
  refine or_iff_not_imp_left.2 fun line c hc point => ?_
  obtain ⟨more, rfl⟩ := List.head?_eq_some_iff.1 hc
  obtain ⟨h, hh, mark⟩ := exists_mark point
  have drawn : Arrow.IsDrawn ⟨a.stroke, h, a.tail, 1⟩ := ⟨ha.1, Nat.le_refl 1⟩
  have same : a.opening ++ (c :: more ++ a.closing) =
      Arrow.token ⟨a.stroke, h, a.tail, 1⟩ ++ (more ++ a.closing) := by simp [token_of_head hh ha line, mark]
  exact not_takes_of_token drawn (fun none => absurd none hh) same split

/-- With nothing in between, the two parts of the token of an arrow are the token of a longer one. -/
theorem exists_token_of_parts (ha : a.IsDrawn) :
    ∃ b : Arrow, b.IsDrawn ∧ b.head = a.head ∧ a.opening ++ a.closing = b.token := by
  obtain ⟨stroke, head, tail, length⟩ := a
  have hstroke := ha.1
  cases stroke with
  | dashed =>
    refine ⟨⟨.dashed, head, tail, length + 1⟩, ⟨nofun, Nat.succ_pos length⟩, rfl, ?_⟩
    simp [Arrow.token, Arrow.body, Arrow.opening, Arrow.start, Arrow.closing, List.replicate_succ]
  | invisible => exact absurd rfl hstroke
  | _ =>
    refine ⟨⟨_, head, tail, length + 2⟩, ⟨hstroke, Nat.succ_pos _⟩, rfl, ?_⟩
    simp [Arrow.token, Arrow.body, Arrow.opening, Arrow.start, Arrow.closing, Head.line, List.replicate_succ]

/-- What is read as a label inside of an arrow is one. -/
theorem isLabel_of_takes_split {label : List Char} (ha : a.IsDrawn) (hrest : a.head.Ends rest)
    (undrawn : ∀ c ∈ label, c ∉ ['-', '=', '.'])
    (split : linkRule.Takes table depth (a.opening ++ (label ++ a.closing)) rest fun offset =>
      .fields (a.splitFields label offset)) : IsLabel label := by
  refine ⟨?_, undrawn, fun c hc hend => ?_⟩
  · rintro rfl
    obtain ⟨b, hb, head, same⟩ := exists_token_of_parts ha
    exact not_takes_of_token hb (head ▸ hrest) (same.trans (List.append_nil _).symm) split
  · have taken : c ∈ a.opening ++ (label ++ a.closing) := List.mem_append_right _ (List.mem_append_left _ hc)
    simp only [List.mem_cons, List.not_mem_nil, or_false] at hend
    obtain rfl | rfl := hend
    · exact split.not_mem rfl rfl rfl taken
    · exact split.not_mem rfl rfl rfl taken

end

/-- Arrows and their tokens. In front of a blank, the token of an arrow that is drawn begins a link, which only a
label in bars may go on with, and the link shows the arrow. The two parts of the token with a text between them, in
which no line is drawn, are a link too, and it shows the arrow with that label, if and only if the text is not empty
and on one line and the line of the arrow has dots or the text does not begin like a head: behind a line the
character of a head ends an arrow. -/
theorem link_shows_arrow {a : Arrow} (ha : a.IsDrawn) (rest : List Char) (table : List (String × Rule)) (depth : Nat) :
    (∀ offset, ∃ next bar text,
      barLabelRule.outcome table depth ⟨offset + Chars.byteSize a.token, ' ' :: rest⟩ = some (next, bar) ∧
        linkRule.outcome table depth ⟨offset, a.token ++ ' ' :: rest⟩ =
          some (next, .fields (("arrow", .token ⟨String.ofList a.token, offset⟩) :: bar.toFields)) ∧
        Shows (("arrow", .token ⟨String.ofList a.token, offset⟩) :: bar.toFields) a text) ∧
      ∀ label, (∀ c ∈ label, c ∉ ['-', '=', '.']) →
        (linkRule.Takes table depth (a.opening ++ (label ++ a.closing)) (' ' :: rest)
            (fun offset => .fields (a.splitFields label offset)) ↔
          IsLabel label ∧ (a.stroke = .dashed ∨ ∀ c ∈ label.head?, c ∉ ['>', 'o', 'x'])) ∧
        ∀ offset, Shows (a.splitFields label offset) a (labelText label) := by
  have ends : a.head.Ends (' ' :: rest) := fun _ => by simp
  refine ⟨fun offset => ?_, fun label undrawn => ⟨⟨fun split => ⟨?_, ?_⟩, fun ⟨hlabel, bare⟩ => ?_⟩,
    shows_split ha label⟩⟩
  · obtain ⟨next, bar, hbar, hlink⟩ := @outcome_link table depth _ _ ha ends offset
    obtain ⟨text, hshows⟩ := exists_shows_bar ha hbar offset
    exact ⟨next, bar, text, hbar, hlink, hshows⟩
  · exact isLabel_of_takes_split ha ends undrawn split
  · exact bare_of_takes_split ha split
  · exact takes_splitLink ha hlabel bare ends

/-- A long thick arrow from a circle to a cross, with and without a label. -/
theorem link_shows_arrow_thick :
    Arrow.ofToken none "o====x" = ⟨.thick, .cross, .circle, 3⟩ ∧
      (∃ next bar, linkRule.outcome [] 0 ⟨0, Arrow.token ⟨.thick, .cross, .circle, 3⟩ ++ " B".toList⟩ =
        some (next, .fields (("arrow", .token ⟨"o====x", 0⟩) :: bar))) ∧
      linkRule.Takes [] 0 (Arrow.opening ⟨.thick, .cross, .circle, 3⟩ ++
          (" yes ".toList ++ Arrow.closing ⟨.thick, .cross, .circle, 3⟩)) " B".toList
        (fun offset => .fields (Arrow.splitFields ⟨.thick, .cross, .circle, 3⟩ " yes ".toList offset)) ∧
      Shows (Arrow.splitFields ⟨.thick, .cross, .circle, 3⟩ " yes ".toList 1) ⟨.thick, .cross, .circle, 3⟩
        (some "yes") := by
  obtain ⟨plain, split⟩ := @link_shows_arrow ⟨.thick, .cross, .circle, 3⟩ ⟨nofun, by decide⟩ "B".toList [] 0
  obtain ⟨next, bar, -, -, hlink, -⟩ := plain 0
  obtain ⟨takes, shows⟩ := split " yes ".toList (by simp)
  exact ⟨by decide, ⟨next, bar.toFields, hlink⟩, takes.2 ⟨⟨by simp, by simp, by simp⟩, .inr (by simp)⟩, shows 1⟩

/-- A label that begins with the letter of a head: the letter ends an arrow, and the rest of the label is a node. -/
theorem exists_label_cut :
    Arrow.IsDrawn {} ∧ IsLabel "open".toList ∧
      Arrow.opening {} ++ ("open".toList ++ Arrow.closing {}) = "--open-->".toList ∧
      ¬ linkRule.Takes [] 0 (Arrow.opening {} ++ ("open".toList ++ Arrow.closing {})) " B".toList
        (fun offset => .fields (Arrow.splitFields {} "open".toList offset)) ∧
      ∃ chart : Chart,
        parseAs .all { nesting := 20 } .flowchart "graph TD\nA --open--> B\n" = .ok ⟨.flowchart, chart⟩ ∧
        chart.edges =
          [{ source := "A", target := "pen", arrow := { head := .circle } }, { source := "pen", target := "B" }] := by
  have drawn : Arrow.IsDrawn {} := ⟨nofun, by decide⟩
  have cut : ¬ (Arrow.stroke {} = .dashed ∨ ∀ c ∈ "open".toList.head?, c ∉ ['>', 'o', 'x']) := by simp
  refine ⟨drawn, ⟨by simp, by simp, by simp⟩, by decide, fun split => cut (bare_of_takes_split drawn split), ?_⟩
  obtain ⟨⟨kind, content⟩, hm, htest⟩ := @exists_parseAs .all { nesting := 20 } .flowchart
    "graph TD\nA --open--> B\n"
    (fun
      | ⟨.flowchart, chart⟩ => decide (Chart.edges chart =
          [{ source := "A", target := "pen", arrow := { head := .circle } }, { source := "pen", target := "B" }])
      | _ => false) (by decide +kernel)
  cases kind
  case flowchart => exact ⟨content, hm, of_decide_eq_true htest⟩
  all_goals cases htest

end DiagramText.Flowchart
