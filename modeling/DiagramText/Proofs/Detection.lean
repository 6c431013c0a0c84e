import DiagramText.Proofs.Parse
import DiagramText.Proofs.Peg.Lexeme
import DiagramText.Proofs.Text.Blank

/-!
# Detection and grammars

The kind of a document is told in two ways. The registry looks at the first significant line, and the
grammar of a kind matches a header behind the lines that say nothing. Both come down to the word that
the document begins with: `Opened kind cs` says that this word is one of the keywords of the kind.

No word opens documents of two kinds (`Kind.Opens.unique`). Every document that the grammar of a kind
accepts is opened by the kind (`opened_of_parse`), and then the detector of that kind matches it and no
other one does (`Opened.detects`). So detection never stands between a document and its grammar
(`detect_of_parse`).
-/

namespace DiagramText

open Peg

/-! ## Opening words -/

/-- A word that documents of a kind begin with. -/
def Kind.Opens (kind : Kind) (word : List Char) : Prop :=
  ∃ keyword ∈ kind.keywords, Spells keyword kind.anyCase word

/-- The keywords of different kinds differ, and not in the case of letters only. -/
theorem keywords_unique (kind kind' : Kind) (keyword keyword' : String)
    (h : keyword ∈ kind.keywords) (h' : keyword' ∈ kind'.keywords)
    (e : keyword.toList.map Char.toLower = keyword'.toList.map Char.toLower) : kind' = kind := by
  have hall : ∀ kind ∈ Kind.all, ∀ kind' ∈ Kind.all, ∀ keyword ∈ kind.keywords,
      ∀ keyword' ∈ kind'.keywords,
      keyword.toList.map Char.toLower = keyword'.toList.map Char.toLower → kind' = kind := by
    decide
  exact hall kind kind.mem_all kind' kind'.mem_all keyword h keyword' h' e

/-- No word opens documents of two kinds. -/
theorem Kind.Opens.unique {kind kind' : Kind} {word : List Char} (h : kind.Opens word)
    (h' : kind'.Opens word) : kind' = kind := by
  obtain ⟨keyword, hmem, hs⟩ := h
  obtain ⟨keyword', hmem', hs'⟩ := h'
  exact keywords_unique kind kind' keyword keyword' hmem hmem'
    (hs.map_toLower.symm.trans hs'.map_toLower)

theorem keywords_wordChars (kind : Kind) : ∀ keyword ∈ kind.keywords,
    keyword.toList ≠ [] ∧ keyword.toList.all isWordChar = true := by
  cases kind <;> decide

/-- An opening word is not empty and has only characters of words. -/
theorem Kind.Opens.wordChars {kind : Kind} {word : List Char} (h : kind.Opens word) :
    word ≠ [] ∧ ∀ c ∈ word, isWordChar c = true := by
  obtain ⟨keyword, hmem, hs⟩ := h
  obtain ⟨hne, hchars⟩ := keywords_wordChars kind keyword hmem
  have hlower := hs.map_toLower
  refine ⟨?_, fun c hc => ?_⟩
  · rintro rfl
    exact hne (List.map_eq_nil_iff.1 hlower.symm)
  · have : c.toLower ∈ keyword.toList.map Char.toLower := hlower ▸ List.mem_map_of_mem hc
    obtain ⟨a, ha, e⟩ := List.mem_map.1 this
    rw [← isWordChar_toLower, ← e, isWordChar_toLower]
    exact List.all_eq_true.1 hchars a ha

/-! ## Opened documents -/

/-- The first word of a document, behind idle lines and blanks, is one that opens documents of a kind. -/
inductive Opened (kind : Kind) (cs : List Char) : Prop where
  | intro (lead blanks word rest : List Char) (eq : cs = lead ++ (blanks ++ (word ++ rest))) (idle : Idle lead)
    (blank : ∀ c ∈ blanks, c = ' ' ∨ c = '\t') (opens : kind.Opens word)
    (stop : ∀ c ∈ rest.head?, isWordChar c = false)

theorem head?_append_blank {rest blanks : List Char} (h : ∀ c ∈ rest.head?, isWordChar c = false)
    (hb : ∀ c ∈ blanks, isBlank c = true) : ∀ c ∈ (rest ++ blanks).head?, isWordChar c = false := by
  cases rest with
  | cons a rest => exact h
  | nil =>
    intro c hc
    have hblank := hb c (List.mem_of_mem_head? hc)
    cases hw : isWordChar c with
    | false => rfl
    | true => rw [not_isBlank_of_isWordChar hw] at hblank; cases hblank

/-- Blanks at the end of a document do not count. -/
theorem Opened.of_trimEnd {kind : Kind} {cs : List Char} (h : Opened kind (Chars.trimEnd cs)) :
    Opened kind cs := by
  obtain ⟨lead, blanks, word, rest, e, hlead, hblanks, hword, hrest⟩ := h
  obtain ⟨more, hcs, hmore⟩ := Chars.exists_append_trimEnd cs
  refine ⟨lead, blanks, word, rest ++ more, ?_, hlead, hblanks, hword,
    head?_append_blank hrest hmore⟩
  rw [hcs, e]
  simp only [List.append_assoc]

/-! ## The first significant line -/

/-- Whether a trimmed line says something. -/
def significant (line : List Char) : Bool := !line.isEmpty && !"%%".toList.isPrefixOf line

theorem firstSignificantLine_eq (input : String) :
    firstSignificantLine input =
      (((Chars.lines input.toList).map Chars.trim).find? significant).map String.ofList :=
  rfl

theorem isBlank_of_space {c : Char} (h : c = ' ' ∨ c = '\t') : isBlank c = true := by
  rcases h with rfl | rfl <;> rfl

theorem significant_of_word {word : List Char} (hne : word ≠ [])
    (h : ∀ c ∈ word, isWordChar c = true) (rest : List Char) : significant (word ++ rest) = true := by
  cases word with
  | nil => exact absurd rfl hne
  | cons a word =>
    have ha : ('%' == a) = false := by
      have hword := h a List.mem_cons_self
      rw [beq_eq_false_iff_ne]
      rintro rfl
      cases hword
    show (!false && !('%' == a && _)) = true
    rw [ha]
    rfl

/-- Blanks and a comment say nothing. -/
theorem not_significant {blanks comment : List Char} (hb : ∀ c ∈ blanks, c = ' ' ∨ c = '\t')
    (hc : comment = [] ∨ ∃ text, comment = '%' :: '%' :: text ∧ ∀ c ∈ text, c ≠ '\r' ∧ c ≠ '\n') :
    significant (Chars.trim (blanks ++ comment)) = false := by
  have hblank : ∀ c ∈ blanks, isBlank c = true := fun c hc => isBlank_of_space (hb c hc)
  rcases hc with rfl | ⟨text, rfl, -⟩
  · rw [List.append_nil, Chars.trim_of_blank hblank]
    rfl
  · have htrim : Chars.trim (blanks ++ '%' :: '%' :: text) = '%' :: '%' :: Chars.trimEnd text := by
      rw [Chars.trim, Chars.trimStart_append_of_blank hblank, Chars.trimStart_cons_of_not_blank rfl]
      exact Chars.trimEnd_append_of_not_blank ['%'] rfl text
    rw [htrim]
    rfl

/-- The first significant line is looked for behind idle lines. -/
theorem find?_lines_idle {lead : List Char} (h : Idle lead) (cs : List Char) :
    ((Chars.lines (lead ++ cs)).map Chars.trim).find? significant =
      ((Chars.lines cs).map Chars.trim).find? significant := by
  induction h with
  | nil => rfl
  | @line blanks comment ending more hb hc he _ ih =>
    have hlines : Chars.lines (blanks ++ comment ++ ending ++ more ++ cs) =
        (blanks ++ comment) :: Chars.lines (more ++ cs) := by
      rw [← Chars.lines_append_ending (lineEnd_not_mem hb hc) he (more ++ cs)]
      simp only [List.append_assoc]
    rw [hlines, List.map_cons, List.find?_cons, not_significant hb hc]
    exact ih

/-- The first significant line of an opened document begins with the word that opens it. -/
theorem Opened.firstLine {kind : Kind} {input : String} (h : Opened kind input.toList) :
    ∃ word rest, firstSignificantLine input = some (String.ofList (word ++ rest)) ∧
      kind.Opens word ∧ ∀ c ∈ rest.head?, isWordChar c = false := by
  obtain ⟨lead, blanks, word, rest, e, hlead, hblanks, hword, hrest⟩ := h
  obtain ⟨hne, hchars⟩ := hword.wordChars
  have hfront : ∀ c ∈ blanks ++ word, c ≠ '\r' ∧ c ≠ '\n' := by
    intro c hmem
    rcases List.mem_append.1 hmem with hmem | hmem
    · rcases hblanks c hmem with rfl | rfl <;> decide
    · have := hchars c hmem
      constructor <;> rintro rfl <;> cases this
  obtain ⟨more, others, hlines, hpre⟩ :=
    Chars.lines_append_start hfront (by simp [hne]) rest
  have htrim : Chars.trim (blanks ++ word ++ more) = word ++ Chars.trimEnd more := by
    rw [List.append_assoc]
    exact Chars.trim_blanks_word (fun c hc => isBlank_of_space (hblanks c hc)) hne
      (fun c hc => not_isBlank_of_isWordChar (hchars c hc)) more
  refine ⟨word, Chars.trimEnd more, ?_, hword, fun c hc => ?_⟩
  · rw [firstSignificantLine_eq, e, find?_lines_idle hlead, ← List.append_assoc, hlines, List.map_cons,
      htrim, List.find?_cons, significant_of_word hne hchars]
    rfl
  · obtain ⟨after, hafter⟩ := (Chars.trimEnd_isPrefix more).trans hpre
    obtain ⟨tail, htail⟩ := List.head?_eq_some_iff.1 hc
    exact hrest c (by rw [← hafter, htail]; rfl)

/-! ## Detectors -/

theorem startsWith_iff {d : Detector} {line : List Char} {keyword : String} :
    d.startsWith (String.ofList line) keyword = true ↔
      ∃ found rest, Spells keyword d.anyCase found ∧ line = found ++ rest ∧
        ∀ c ∈ rest.head?, isWordChar c = false := by
  have hdrop (rest : List Char) :
      (if d.anyCase then Chars.dropStartAnyCase? keyword.toList line
        else Chars.dropStart? keyword.toList line) = some rest ↔
        ∃ found, Spells keyword d.anyCase found ∧ line = found ++ rest := by
    cases h : d.anyCase with
    | true => exact Chars.dropStartAnyCase?_eq_some
    | false =>
      simp only [Bool.false_eq_true, ↓reduceIte, Chars.dropStart?_eq_some, Spells, exists_eq_left]
  rw [Detector.startsWith, String.toList_ofList]
  constructor
  · intro h
    split at h
    · cases h
    · rename_i hs
      obtain ⟨found, hf, e⟩ := (hdrop []).1 hs
      exact ⟨found, [], hf, e, by simp⟩
    · rename_i c rest hs
      obtain ⟨found, hf, e⟩ := (hdrop (c :: rest)).1 hs
      refine ⟨found, c :: rest, hf, e, ?_⟩
      rintro _ ⟨⟩
      exact Bool.not_eq_true' _ ▸ h
  · rintro ⟨found, rest, hf, e, hrest⟩
    simp only [(hdrop rest).2 ⟨found, hf, e⟩]
    cases rest with
    | nil => rfl
    | cons c rest =>
      show (!isWordChar c) = true
      rw [hrest c rfl]
      rfl

/-- The detector of a kind matches the lines whose first word opens documents of the kind. -/
theorem matchesLine_iff {kind : Kind} {word rest : List Char} (hword : ∀ c ∈ word, isWordChar c = true)
    (hrest : ∀ c ∈ rest.head?, isWordChar c = false) :
    (Detector.ofKind kind).matchesLine (String.ofList (word ++ rest)) = true ↔ kind.Opens word := by
  rw [Detector.matchesLine, List.any_eq_true]
  constructor
  · rintro ⟨keyword, hmem, h⟩
    obtain ⟨found, after, hf, e, hafter⟩ := startsWith_iff.1 h
    have hopens : kind.Opens found := ⟨keyword, hmem, hf⟩
    have : word = found := by
      rw [← takeWhile_word hword hrest, e, takeWhile_word hopens.wordChars.2 hafter]
    exact this ▸ hopens
  · rintro ⟨keyword, hmem, hs⟩
    exact ⟨keyword, hmem, startsWith_iff.2 ⟨word, rest, hs, rfl, hrest⟩⟩

/-- The detector of the kind that opens a document matches it, and no other detector does. -/
theorem Opened.detects {kind : Kind} {input : String} (h : Opened kind input.toList) (other : Kind) :
    (Detector.ofKind other).detects input = true ↔ other = kind := by
  obtain ⟨word, rest, hline, hword, hrest⟩ := h.firstLine
  rw [Detector.detects, hline, Option.any_some, matchesLine_iff hword.wordChars.2 hrest]
  exact ⟨fun h => hword.unique h, fun e => e ▸ hword⟩

/-- An opened document is of the kind that opens it. -/
theorem Opened.detect {r : Registry} (hr : ∀ kind, r.detector? kind = some (.ofKind kind))
    {kind : Kind} {input : String} (h : Opened kind input.toList) : r.detect input = .ok kind := by
  have hdetects := h.detects
  obtain ⟨word, rest, hline, hword, hrest⟩ := h.firstLine
  have hkind : r.kindOfLine? (String.ofList (word ++ rest)) = some kind := by
    rw [Registry.kindOfLine?_eq]
    simp only [hr, Option.any_some]
    simp only [Detector.detects, hline, Option.any_some] at hdetects
    cases hfind : Kind.all.find? _ with
    | none => exact absurd ((hdetects kind).2 rfl) (List.find?_eq_none.1 hfind kind kind.mem_all)
    | some found =>
      have hfound := List.find?_some hfind
      rw [(hdetects found).1 hfound]
  rw [Registry.detect, hline]
  simp only [hkind]

example : (Registry.all.detect "%% a comment\n\n pie showData\n").toOption = some .pie := by
  decide

/-! ## Headers -/

/-- Every match of a rule begins with a word that opens documents of a kind. -/
def OpensWith (kind : Kind) (r : Rule) : Prop :=
  ∀ table depth cur next fragment, r.outcome table depth cur = some (next, fragment) →
    ∃ word rest, cur.rest = word ++ rest ∧ kind.Opens word ∧ ∀ c ∈ rest.head?, isWordChar c = false

section

variable {kind : Kind}

theorem opensWith_keyword {text : String} (h : text ∈ kind.keywords) :
    OpensWith kind (.sequence [.literal text kind.anyCase, .notAhead wordChar]) := by
  intro table depth cur next fragment hm
  obtain ⟨word, hs, hspan, hend⟩ := keyword_spells hm
  exact ⟨word, next.rest, hspan.rest, ⟨text, h, hs⟩, hend⟩

theorem opensWith_choice {rules : List Rule} (h : ∀ r ∈ rules, OpensWith kind r) :
    OpensWith kind (.choice rules) := by
  intro table depth cur next fragment hm
  obtain ⟨r, hr, hm⟩ := choice_eq_some hm
  exact h r hr table depth cur next fragment hm

theorem opensWith_sequence {r : Rule} (h : OpensWith kind r) (rules : List Rule) :
    OpensWith kind (.sequence (r :: rules)) := by
  intro table depth cur next fragment hm
  obtain ⟨mid, a, _, hm, -, -⟩ := sequence_cons_eq_some.1 hm
  exact h table depth cur mid a hm

end

/-- Two keywords of a kind, either of which may begin its documents. -/
theorem opensWith_either {kind : Kind} {text other : String} (h : text ∈ kind.keywords)
    (h' : other ∈ kind.keywords) :
    OpensWith kind (.choice
      [.sequence [.literal text kind.anyCase, .notAhead wordChar],
        .sequence [.literal other kind.anyCase, .notAhead wordChar]]) := by
  refine opensWith_choice fun r hr => ?_
  simp only [List.mem_cons, List.not_mem_nil, or_false] at hr
  rcases hr with rfl | rfl
  · exact opensWith_keyword h
  · exact opensWith_keyword h'

/-- The grammar of a kind begins with idle lines, blanks and a header that its keywords open. -/
theorem exists_header (kind : Kind) :
    ∃ header body, kind.dialect.grammar.root = .sequence (preamble :: ws :: header :: body) ∧
      OpensWith kind header := by
  cases kind with
  | flowchart =>
    exact ⟨_, _, rfl, opensWith_sequence (@opensWith_either .flowchart _ _ (by decide) (by decide)) _⟩
  | sequence => exact ⟨_, _, rfl, @opensWith_keyword .sequence _ (by decide)⟩
  | classDiagram =>
    exact ⟨_, _, rfl, @opensWith_either .classDiagram _ _ (by decide) (by decide)⟩
  | state => exact ⟨_, _, rfl, @opensWith_either .state _ _ (by decide) (by decide)⟩
  | er => exact ⟨_, _, rfl, @opensWith_keyword .er _ (by decide)⟩
  | journey => exact ⟨_, _, rfl, @opensWith_keyword .journey _ (by decide)⟩
  | gitGraph => exact ⟨_, _, rfl, opensWith_sequence (@opensWith_keyword .gitGraph _ (by decide)) _⟩
  | sankey => exact ⟨_, _, rfl, @opensWith_either .sankey _ _ (by decide) (by decide)⟩
  | pie => exact ⟨_, _, rfl, opensWith_sequence (@opensWith_keyword .pie _ (by decide)) _⟩
  | gantt => exact ⟨_, _, rfl, @opensWith_keyword .gantt _ (by decide)⟩
  | timeline => exact ⟨_, _, rfl, @opensWith_keyword .timeline _ (by decide)⟩
  | mindmap => exact ⟨_, _, rfl, @opensWith_keyword .mindmap _ (by decide)⟩
  | quadrantChart => exact ⟨_, _, rfl, @opensWith_keyword .quadrantChart _ (by decide)⟩
  | requirement => exact ⟨_, _, rfl, @opensWith_keyword .requirement _ (by decide)⟩
  | packet => exact ⟨_, _, rfl, @opensWith_either .packet _ _ (by decide) (by decide)⟩
  | kanban => exact ⟨_, _, rfl, @opensWith_keyword .kanban _ (by decide)⟩
  | xyChart =>
    exact ⟨_, _, rfl, opensWith_sequence (@opensWith_either .xyChart _ _ (by decide) (by decide)) _⟩
  | architecture => exact ⟨_, _, rfl, @opensWith_either .architecture _ _ (by decide) (by decide)⟩
  | radar => exact ⟨_, _, rfl, @opensWith_either .radar _ _ (by decide) (by decide)⟩
  | info => exact ⟨_, _, rfl, opensWith_sequence (@opensWith_keyword .info _ (by decide)) _⟩

/-- A document that the grammar of a kind accepts is opened by the kind. -/
theorem opened_of_parse {kind : Kind} {input : String} {tree : Tree}
    (h : kind.dialect.grammar.parse depth input = .ok tree) : Opened kind input.toList := by
  obtain ⟨header, body, hroot, hheader⟩ := exists_header kind
  obtain ⟨last, fragment, hm, -, -⟩ := parse_eq_ok.1 h
  rw [hroot] at hm
  obtain ⟨first, _, _, hpreamble, hm, -⟩ := sequence_cons_eq_some.1 hm
  obtain ⟨second, _, _, hws, hm, -⟩ := sequence_cons_eq_some.1 hm
  obtain ⟨third, _, _, hm, -, -⟩ := sequence_cons_eq_some.1 hm
  obtain ⟨lead, hlead, hs⟩ := preamble_idle hpreamble
  obtain ⟨blanks, hblanks, hs'⟩ := ws_spans hws
  obtain ⟨word, rest, e, hword, hrest⟩ := hheader _ _ _ _ _ hm
  refine ⟨lead, blanks, word, rest, ?_, hlead, hblanks, hword, hrest⟩
  rw [← e, ← hs'.rest, ← hs.rest]
  rfl

/-- A document that the grammar of a kind accepts, with or without the blanks at its end, is detected
as of this kind and of no other, and parsed as a document of this kind. -/
theorem detect_of_parse {r : Registry} (hr : ∀ kind, r.detector? kind = some (.ofKind kind))
    {kind : Kind} {input : String}
    (h : (∃ tree, kind.dialect.grammar.parse depth input = .ok tree) ∨
      ∃ tree, kind.dialect.grammar.parse depth (trimEnd input) = .ok tree) :
    r.detect input = .ok kind ∧
      (∀ other, (Detector.ofKind other).detects input = true ↔ other = kind) ∧
      ∀ options, parse r options input = parseAs r options kind input := by
  have hopened : Opened kind input.toList := by
    rcases h with ⟨tree, h⟩ | ⟨tree, h⟩
    · exact opened_of_parse h
    · have htrim := opened_of_parse h
      rw [trimEnd, String.toList_ofList] at htrim
      exact htrim.of_trimEnd
  refine ⟨hopened.detect hr, hopened.detects, fun options => ?_⟩
  rw [parse, hopened.detect hr]

/-- A pie chart behind a comment line; its grammar does not take the blanks behind the last line. -/
theorem detect_of_parse_pie :
    (∃ tree, Kind.pie.dialect.grammar.parse 20 (trimEnd "%% a\npie\n \x0b") = .ok tree) ∧
      Registry.all.detect "%% a\npie\n \x0b" = .ok .pie := by
  have hparse : ∃ tree, Kind.pie.dialect.grammar.parse 20 (trimEnd "%% a\npie\n \x0b") = .ok tree := by
    have hok : (Kind.pie.dialect.grammar.parse 20 (trimEnd "%% a\npie\n \x0b")).isOk = true := by
      decide +kernel
    cases h : Kind.pie.dialect.grammar.parse 20 (trimEnd "%% a\npie\n \x0b") with
    | ok tree => exact ⟨tree, rfl⟩
    | error failure =>
      rw [h] at hok
      cases hok
  exact ⟨hparse, (detect_of_parse detector?_all (.inr hparse)).1⟩

end DiagramText
