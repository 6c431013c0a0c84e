import DiagramText.Proofs.LeadingLines
import DiagramText.Proofs.Peg.Captures
import DiagramText.Proofs.Peg.Keywords
import DiagramText.Proofs.Peg.Loud
import DiagramText.Proofs.Text.ContentLines
import Mathlib.Data.List.Forall2

/-!
# Bodies of lines

The body of a document may be a list of lines, each an item behind its indentation. Every round takes what is
left of the input up to the end of a line, and leaves a tree if the line is not idle (`round_line`). Behind the
header of an accepted document the trees are so the lines with content, one by one and in order. A comment
that no line feed ends is taken for an item as well (`forall₂_rounds`).
-/

namespace DiagramText.Peg

open Chars

section

variable {table : List (String × Rule)} {depth : Nat} {item : Rule} {cur next : Cursor} {a : Fragment}

/-- Idle lines in front of a text have no content. -/
theorem contentLines_idle {lead : List Char} (h : Idle lead) (rest : List Char) :
    contentLines (lead ++ rest) = contentLines rest ∧ looseComment? (lead ++ rest) = looseComment? rest := by
  induction h with
  | nil => exact ⟨rfl, rfl⟩
  | @line blanks comment ending more hb hc he _ ih =>
    have inLine := lineEnd_not_mem hb hc
    have idle : isIdle (blanks ++ comment) = true :=
      isIdle_append hb (hc.imp_right fun ⟨text, e, _⟩ => ⟨text, e⟩)
    rw [List.append_assoc, List.append_assoc, contentLines_append_ending inLine he, idle, if_pos rfl,
      looseComment?_append_ending inLine he]
    exact ih

/-- An idle line that is ended is a blank line. -/
theorem blankLine_ne_none {line ending : List Char} (hs : cur.Spans (line ++ ending) next)
    (inLine : ∀ c ∈ line, c ≠ '\r' ∧ c ≠ '\n') (he : ending = ['\n'] ∨ ending = ['\r', '\n'])
    (idle : isIdle line = true) : blankLine.outcome table depth cur ≠ none := by
  obtain ⟨offset, rest⟩ := cur
  obtain rfl : rest = line ++ ending ++ next.rest := hs.rest
  have comment : unindented line = [] ∨
      ∃ more, unindented line = '%' :: '%' :: more ∧ ∀ c ∈ more, c ≠ '\r' ∧ c ≠ '\n' := by
    refine (exists_of_isIdle idle).imp_right fun ⟨more, e⟩ => ⟨more, e, fun c hc => inLine c ?_⟩
    rw [← indentation_append_unindented line, e]
    exact List.mem_append_right _ (List.mem_cons_of_mem _ (List.mem_cons_of_mem _ hc))
  have taken := @outcome_blankLine_idle table depth _ (indentation line) _ blank_of_mem_indentation comment he
    offset next.rest
  rw [indentation_append_unindented] at taken
  rw [taken]
  nofun

/-! ## Lines that say something -/

/-- A line that is not blank, and its end, which the end of the input may be. -/
structure InkedLine (cur next : Cursor) (line ending : List Char) : Prop where
  spans : cur.Spans (line ++ ending) next
  inLine : ∀ c ∈ line, c ≠ '\r' ∧ c ≠ '\n'
  ends : (ending = ['\n'] ∨ ending = ['\r', '\n']) ∨ ending = [] ∧ next.rest = []
  indentation_eq : indentation line = indentation cur.rest
  inked : unindented line ≠ []

/-- A text behind the blanks at a position makes a line with what may stand at the end of one. -/
theorem exists_inkedLine {mid : Cursor} {text : List Char} (htext : (cur.past [' ', '\t'].contains).Spans text mid)
    (hne : text ≠ []) (textInLine : ∀ c ∈ text, c ≠ '\r' ∧ c ≠ '\n')
    (heol : eol.outcome table depth mid = some (next, a)) :
    ∃ line ending trail, InkedLine cur next line ending ∧ unindented line = text ++ trail ∧ isIdle trail = true := by
  obtain ⟨blanks, comment, ending, htrail, blank, hcomment, ends⟩ := eol_parts heol
  have trailInLine := lineEnd_not_mem blank hcomment
  have idle : isIdle (blanks ++ comment) = true :=
    isIdle_append blank (hcomment.imp_right fun ⟨more, e, _⟩ => ⟨more, e⟩)
  generalize blanks ++ comment = trail at htrail trailInLine idle
  have hblanks : cur.Spans (indentation cur.rest) (cur.past [' ', '\t'].contains) := cur.spans_past _
  have behind : unindented cur.rest = text ++ (trail ++ ending ++ next.rest) := htext.rest.trans (by rw [htrail.rest])
  obtain ⟨same, content⟩ : indentation (indentation cur.rest ++ (text ++ trail)) = indentation cur.rest ∧
      unindented (indentation cur.rest ++ (text ++ trail)) = text ++ trail := by
    refine indentation_append blank_of_mem_indentation fun c hc => @head_unindented cur.rest c ?_
    rw [behind, List.head?_append_of_ne_nil _ hne]
    rwa [List.head?_append_of_ne_nil _ hne] at hc
  refine ⟨indentation cur.rest ++ (text ++ trail), ending, trail, ⟨?_, ?_, ends, same, ?_⟩, content, idle⟩
  · have := (hblanks.trans htext).trans htrail
    rwa [List.append_assoc, ← List.append_assoc text, ← List.append_assoc] at this
  · intro c hc
    rw [List.mem_append, List.mem_append] at hc
    obtain hc | hc | hc := hc
    · obtain rfl | rfl := blank_of_mem_indentation c hc <;> decide
    · exact textInLine c hc
    · exact trailInLine c hc
  · simp [content, hne]

namespace InkedLine

variable {line ending : List Char}

theorem feed_not_mem (h : InkedLine cur next line ending) : '\n' ∉ line := fun hc => (h.inLine _ hc).2 rfl

theorem lines_eq (h : InkedLine cur next line ending) : Chars.lines (line ++ ending) = [line] := by
  obtain he | ⟨rfl, -⟩ := h.ends
  · rw [← List.append_nil ending, lines_append_ending h.inLine he]
    rfl
  · rw [List.append_nil]
    refine lines_of_not_mem h.feed_not_mem fun empty => h.inked ?_
    rw [empty]
    rfl

/-- A line with content is the first of them. -/
theorem contentLines_eq (h : InkedLine cur next line ending) (busy : isIdle line = false) :
    contentLines cur.rest = line :: contentLines next.rest ∧ looseComment? cur.rest = looseComment? next.rest := by
  rw [h.spans.rest, List.append_assoc]
  obtain he | ⟨rfl, hrest⟩ := h.ends
  · rw [contentLines_append_ending h.inLine he, looseComment?_append_ending h.inLine he, busy]
    exact ⟨rfl, rfl⟩
  · have plain : isComment line = false := (Bool.or_eq_false_iff.1 busy).2
    rw [hrest, List.append_nil, List.append_nil, contentLines_of_not_mem h.feed_not_mem,
      looseComment?_of_not_mem h.feed_not_mem, busy, plain]
    exact ⟨rfl, rfl⟩

/-- A line that is no blank line of the grammar has content, or is a comment that ends the input. -/
theorem bodyLines_eq (h : InkedLine cur next line ending) (missed : blankLine.outcome table depth cur = none) :
    bodyLines cur.rest = line :: bodyLines next.rest := by
  cases idle : isIdle line with
  | false =>
    obtain ⟨content, loose⟩ := h.contentLines_eq idle
    rw [bodyLines, content, loose]
    rfl
  | true =>
    obtain ⟨rfl, hrest⟩ := h.ends.resolve_left fun he => blankLine_ne_none h.spans h.inLine he idle missed
    rw [h.spans.rest, hrest, List.append_nil, List.append_nil, bodyLines_of_not_mem h.feed_not_mem,
      if_neg (by simpa using h.inked)]
    rfl

end InkedLine

/-! ## Rounds -/

/-- A round of a body of lines: an idle line, or an item behind its indentation. -/
def lineRound (item : Rule) : Rule := .choice [blankLine, .sequence [.capture "indent" ws, item, eol]]

/-- The rule takes a text within a line, and not an empty one. -/
def Rule.TakesInLine (table : List (String × Rule)) (depth : Nat) (r : Rule) : Prop :=
  ∀ cur next a, r.outcome table depth cur = some (next, a) →
    ∃ text, cur.Spans text next ∧ text ≠ [] ∧ ∀ c ∈ text, c ≠ '\r' ∧ c ≠ '\n'

/-- A rule that consumes and avoids line ends takes a text within a line where it is referred to. -/
theorem takesInLine_ref {name : String} {r : Rule} (hr : table.lookup name = some r)
    (htable : ∀ name r, table.lookup name = some r → r.consumes = true) (back : r.avoids '\r' = true)
    (feed : r.avoids '\n' = true) : (Rule.ref name).TakesInLine table depth := by
  intro cur next a h
  cases depth with
  | zero =>
    rw [outcome_ref_zero] at h
    cases h
  | succ depth =>
    rw [outcome_ref, hr, Option.bind_some] at h
    have moved := lt_of_consumes htable (htable name r hr) h
    obtain ⟨text, hs, hfeed⟩ := without_of_avoids rfl rfl feed cur next a h
    obtain ⟨text', hs', hback⟩ := without_of_avoids rfl rfl back cur next a h
    obtain rfl : text = text' := List.append_cancel_right (hs.rest.symm.trans hs'.rest)
    refine ⟨text, hs, ?_, fun c hc => ⟨fun e => hback (e ▸ hc), fun e => hfeed (e ▸ hc)⟩⟩
    rintro rfl
    exact Nat.lt_irrefl _ (hs.offset ▸ moved)

/-- The tree goes over the line and its end, and keeps the indentation of the line. -/
structure IsLine (line : List Char) (t : Tree) : Prop where
  text : Chars.lines t.span.text.toList = [line]
  indent : t.text? "indent" = some (String.ofList (indentation line))

theorem exists_item (hitem : item.TakesInLine table depth)
    (h : (Rule.sequence [.capture "indent" ws, item, eol]).outcome table depth cur = some (next, a)) :
    (∃ line ending, InkedLine cur next line ending) ∧
      ∃ more, a.toFields = ("indent", .token ⟨String.ofList (indentation cur.rest), cur.offset⟩) :: more := by
  obtain ⟨first, indent, _, hindent, hmore, rfl⟩ := sequence_cons_eq_some.1 h
  obtain ⟨second, b, _, hb, hend, rfl⟩ := sequence_cons_eq_some.1 hmore
  obtain ⟨_, heol, rfl⟩ := sequence_singleton_eq_some.1 hend
  rw [outcome_capture, outcome_ws] at hindent
  obtain ⟨rfl, rfl⟩ := Prod.mk.inj (Option.some.inj hindent)
  obtain ⟨text, htext, hne, inLine⟩ := hitem _ _ _ hb
  obtain ⟨line, ending, -, hline, -⟩ := exists_inkedLine htext hne inLine heol
  have span : cur.spanTo (cur.past [' ', '\t'].contains) = ⟨String.ofList (indentation cur.rest), cur.offset⟩ :=
    (cur.spans_past _).spanTo
  exact ⟨⟨line, ending, hline⟩, _, congrArg (fun token => ("indent", Node.token token) :: _) span⟩

/-- A round moves over a line. It leaves the tree of the line, unless the line is idle. -/
theorem round_line (hitem : item.TakesInLine table depth)
    (h : (lineRound item).outcome table depth cur = some (next, a)) :
    ∃ taken, bodyLines cur.rest = taken ++ bodyLines next.rest ∧
      List.Forall₂ IsLine taken (a.round (cur.spanTo next)) := by
  rw [lineRound, outcome_choice_cons] at h
  cases hblank : blankLine.outcome table depth cur with
  | some found =>
    rw [hblank, Option.some_or] at h
    obtain rfl := Option.some.inj h
    obtain ⟨lead, idle, -, hs⟩ := blankLine_idle hblank
    obtain ⟨content, loose⟩ := contentLines_idle idle next.rest
    have fields := toFields_of_capturesNone rfl _ _ _ hblank
    refine ⟨[], ?_, ?_⟩
    · rw [hs.rest, bodyLines, content, loose]
      rfl
    · rw [Fragment.round, if_pos fields]
      exact .nil
  | none =>
    rw [hblank, Option.none_or] at h
    obtain ⟨r, hr, hm⟩ := choice_eq_some h
    obtain rfl := List.mem_singleton.1 hr
    obtain ⟨⟨line, ending, hline⟩, more, fields⟩ := exists_item hitem hm
    refine ⟨[line], hline.bodyLines_eq hblank, ?_⟩
    rw [Fragment.round, if_neg (fields ▸ List.cons_ne_nil _ _)]
    refine .cons ⟨?_, ?_⟩ .nil
    · rw [hline.spans.spanTo]
      exact (congrArg Chars.lines String.toList_ofList).trans hline.lines_eq
    · rw [Tree.text?, Tree.get?, Fragment.toTree, Tree.fields, fields, hline.indentation_eq]
      rfl

/-- The rounds up to the end of the input leave the trees of the lines, one by one and in order. -/
theorem forall₂_rounds (hitem : item.TakesInLine table depth) {trees : List Tree}
    (h : (many (lineRound item)).outcome table depth cur = some (next, .items trees)) (hrest : next.rest = []) :
    List.Forall₂ IsLine (bodyLines cur.rest) trees := by
  obtain ⟨trees', e, all⟩ := repeated_ind
    (motive := fun cur next trees => ∃ taken, bodyLines cur.rest = taken ++ bodyLines next.rest ∧
      List.Forall₂ IsLine taken trees)
    (fun _ => ⟨[], rfl, .nil⟩) (fun _ _ hs => round_line hitem hs)
    (fun cur mid next a trees hs _ ⟨later, hlater, related⟩ => by
      obtain ⟨taken, htaken, round⟩ := round_line hitem hs
      refine ⟨taken ++ later, ?_, List.rel_append round related⟩
      rw [htaken, hlater, List.append_assoc]) h
  obtain ⟨taken, htaken, related⟩ := all
  obtain rfl := Fragment.items.inj e
  rw [hrest, show bodyLines [] = [] from rfl, List.append_nil] at htaken
  exact htaken ▸ related

/-! ## Documents -/

/-- The first line with content is that of the header. -/
theorem header_line {word : String} (hne : word.toList ≠ []) (hword : ∀ c ∈ word.toList, isWordChar c = true)
    (h : (Rule.sequence [preamble, ws, keyword word, eol]).outcome table depth cur = some (next, a)) :
    (contentLines cur.rest).tail = contentLines next.rest ∧ looseComment? cur.rest = looseComment? next.rest := by
  obtain ⟨first, _, _, hpreamble, h, -⟩ := sequence_cons_eq_some.1 h
  obtain ⟨second, _, _, hws, h, -⟩ := sequence_cons_eq_some.1 h
  obtain ⟨third, _, _, hkeyword, h, -⟩ := sequence_cons_eq_some.1 h
  obtain ⟨_, heol, -⟩ := sequence_singleton_eq_some.1 h
  obtain ⟨lead, idle, hlead⟩ := preamble_idle hpreamble
  rw [outcome_ws] at hws
  obtain ⟨rfl, -⟩ := Prod.mk.inj (Option.some.inj hws)
  obtain ⟨found, rfl : found = _, hs, -⟩ := keyword_spells hkeyword
  have inLine : ∀ c ∈ word.toList, c ≠ '\r' ∧ c ≠ '\n' := by
    intro c hc
    constructor <;> rintro rfl <;> cases hword _ hc
  obtain ⟨line, ending, trail, hline, content, -⟩ := exists_inkedLine hs hne inLine heol
  have busy : isIdle line = false := by
    refine Bool.eq_false_iff.2 fun idle => ?_
    obtain empty | ⟨more, comment⟩ := exists_of_isIdle idle
    · exact hline.inked empty
    · have head : '%' ∈ (word.toList ++ trail).head? := by rw [← content, comment]; rfl
      rw [List.head?_append_of_ne_nil _ hne] at head
      cases hword _ (List.mem_of_mem_head? head)
  obtain ⟨content, loose⟩ := contentLines_idle idle first.rest
  rw [hlead.rest, content, loose, (hline.contentLines_eq busy).1, (hline.contentLines_eq busy).2]
  exact ⟨rfl, rfl⟩

/-- The trees of an accepted document are its lines with content behind that of the header, one by one and in order.
A comment that no line feed ends is the last of them. -/
theorem forall₂_of_parse {g : Grammar} {word field input : String} {t : Tree}
    (hroot : g.root = document (keyword word) (.capture field (many (lineRound item))))
    (hword : word.toList ≠ [] ∧ word.toList.all isWordChar = true)
    (hitem : item.TakesInLine g.rules depth)
    (accepted : g.parse depth input = .ok t) :
    List.Forall₂ IsLine ((contentLines input.toList).tail ++ (looseComment? input.toList).toList) (t.list field) := by
  obtain ⟨first, next, front, hheader, -, hrounds, hrest⟩ := exists_rounds_of_parse hroot rfl accepted
  obtain ⟨content, loose⟩ := header_line hword.1 (List.all_eq_true.1 hword.2) hheader
  rw [Cursor.start] at content loose
  rw [content, loose]
  exact forall₂_rounds hitem hrounds hrest

end

end DiagramText.Peg
