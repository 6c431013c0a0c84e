import DiagramText.Proofs.Detection
import DiagramText.Proofs.Peg.Transport

/-!
# Lines before the header

Idle lines in front of a document, which hold blanks and comments only, say nothing. The preamble of a
grammar takes them and goes on as it would without them (`outcome_preamble_idle`); behind them every rule
matches as it does without them, further on in the text (`outcome_shifted`). So a document with idle lines
in front is parsed exactly when the document is, to the same syntax tree with every span further on, and
it is of the same kind (`parse_idle_append`).
-/

namespace DiagramText

/-! ## Shifted positions -/

/-- The span when `k` bytes are put in front of the text. -/
def Token.shifted (k : Nat) (t : Token) : Token := ⟨t.text, t.offset + k⟩

namespace Peg

/-- The position when `k` bytes are put in front of the text. -/
def Cursor.shifted (k : Nat) (cur : Cursor) : Cursor := ⟨cur.offset + k, cur.rest⟩

/-- Text in front of an input shifts positions and spans. -/
def shift (k : Nat) : Transport where
  Valid _ := True
  cursor := .shifted k
  token := .shifted k
  valid_of_reaches _ _ := trivial
  cursor_inj _ hreach e := hreach.eq_of_offset (by
    have := congrArg Cursor.offset e
    simpa only [Cursor.shifted, Nat.add_right_cancel_iff] using this)
  spanTo_cursor _ _ := by
    simp only [Cursor.spanTo, Cursor.shifted, Token.shifted, Nat.add_sub_add_right]

section

variable {table : List (String × Rule)} {depth : Nat}

/-- What a rule gives at a position does not depend on what stands before it. -/
theorem outcome_shifted (r : Rule) (k : Nat) (cur : Cursor) :
    r.outcome table depth (cur.shifted k) = (r.outcome table depth cur).map (shift k).result := by
  have hliteral (depth : Nat) (text : String) (anyCase : Bool) :
      (shift k).Carries table depth (.literal text anyCase) := by
    intro cur _
    rw [outcome_literal, outcome_literal]
    simp only [Cursor.skip?, Option.map_map]
    refine congrArg (Option.map · _) (funext fun rest => ?_)
    simp only [Function.comp_apply, Transport.result, shift, Cursor.shifted, Nat.add_right_comm,
      Fragment.map_empty]
  have hchars (depth : Nat) (set : CharClass) : (shift k).Carries table depth (.chars set) := by
    rintro ⟨offset, rest⟩ -
    rw [outcome_chars, outcome_chars]
    cases rest with
    | nil => rfl
    | cons c rest =>
      simp only [Cursor.next?, shift, Cursor.shifted]
      split
      · simp only [Option.map_some, Transport.result, Cursor.shifted, Nat.add_right_comm,
          Fragment.map_empty]
      · rfl
  exact Transport.Carries.of_atoms hliteral hchars r cur trivial

/-! ## Preambles -/

variable {cur next : Cursor} {text rest : List Char}

theorem outcome_ws_blanks (hb : ∀ c ∈ text, c = ' ' ∨ c = '\t')
    (hrest : ∀ c ∈ rest.head?, ¬ (c = ' ' ∨ c = '\t')) (offset : Nat) :
    ws.outcome table depth ⟨offset, text ++ rest⟩ =
      some (⟨offset + Chars.byteSize text, rest⟩, .items []) := by
  rw [outcome_ws, Cursor.past_append (by simpa using hb) (by simpa using hrest)]

/-- A line end stops a comment. -/
theorem outcome_comment_text (ht : ∀ c ∈ text, c ≠ '\r' ∧ c ≠ '\n')
    (hrest : ∀ c ∈ rest.head?, c = '\r' ∨ c = '\n') (offset : Nat) :
    comment.outcome table depth ⟨offset, '%' :: '%' :: text ++ rest⟩ =
      some (⟨offset + Chars.byteSize ('%' :: '%' :: text), rest⟩, .empty) := by
  have hmark : (lit "%%").outcome table depth ⟨offset, '%' :: '%' :: text ++ rest⟩ =
      some (⟨offset + Chars.byteSize ['%', '%'], text ++ rest⟩, .empty) :=
    outcome_lit "%%" offset (text ++ rest)
  have hkeep : ∀ c ∈ text, (CharClass.noneOf "\r\n".toList).contains c = true := by
    simpa [CharClass.contains] using ht
  have hstop : ∀ c ∈ rest.head?, (CharClass.noneOf "\r\n".toList).contains c = false := by
    intro c hc
    rcases hrest c hc with rfl | rfl <;> rfl
  have htext : (Rule.quiet (many (noneOf "\r\n"))).outcome table depth
      ⟨offset + Chars.byteSize ['%', '%'], text ++ rest⟩ =
        some (⟨offset + Chars.byteSize ('%' :: '%' :: text), rest⟩, .items []) := by
    rw [outcome_quiet, noneOf, outcome_many_chars, Cursor.past_append hkeep hstop, Nat.add_assoc,
      ← Chars.byteSize_append]
    rfl
  exact sequence_cons_eq_some.2 ⟨_, _, _, hmark,
    sequence_cons_eq_some.2 ⟨_, _, _, htext, outcome_sequence_nil _, rfl⟩, rfl⟩

/-- A line of blanks, with or without a comment, is a blank line. -/
theorem outcome_blankLine_idle {blanks ending : List Char} (hb : ∀ c ∈ blanks, c = ' ' ∨ c = '\t')
    (hc : text = [] ∨ ∃ more, text = '%' :: '%' :: more ∧ ∀ c ∈ more, c ≠ '\r' ∧ c ≠ '\n')
    (he : ending = ['\n'] ∨ ending = ['\r', '\n']) (offset : Nat) (rest : List Char) :
    blankLine.outcome table depth ⟨offset, blanks ++ text ++ ending ++ rest⟩ =
      some (⟨offset + Chars.byteSize (blanks ++ text ++ ending), rest⟩, .empty) := by
  have hend : ∀ c ∈ (ending ++ rest).head?, c = '\r' ∨ c = '\n' := by
    rcases he with rfl | rfl <;> simp
  have hws : ws.outcome table depth ⟨offset, blanks ++ (text ++ (ending ++ rest))⟩ =
      some (⟨offset + Chars.byteSize blanks, text ++ (ending ++ rest)⟩, .items []) := by
    refine outcome_ws_blanks hb (fun c hc' => ?_) offset
    rcases hc with rfl | ⟨more, rfl, -⟩
    · rcases hend c hc' with rfl | rfl <;> decide
    · obtain rfl : '%' = c := Option.some.inj hc'
      decide
  have hcomment : (Rule.optional comment).outcome table depth
      ⟨offset + Chars.byteSize blanks, text ++ (ending ++ rest)⟩ =
        some (⟨offset + Chars.byteSize blanks + Chars.byteSize text, ending ++ rest⟩, .empty) := by
    rw [outcome_optional]
    rcases hc with rfl | ⟨more, rfl, hmore⟩
    · have hnone : comment.outcome table depth ⟨offset + Chars.byteSize blanks, [] ++ (ending ++ rest)⟩ =
          none := by
        rw [comment, outcome_sequence_cons, lit, outcome_literal]
        rcases he with rfl | rfl <;> rfl
      rw [hnone]
      rfl
    · rw [outcome_comment_text hmore hend]
      rfl
  have hnewline := @outcome_newline_ending table depth ending he
    (offset + Chars.byteSize blanks + Chars.byteSize text) rest
  rw [blankLine, outcome_quiet, List.append_assoc, List.append_assoc, Chars.byteSize_append,
    Chars.byteSize_append, ← Nat.add_assoc, ← Nat.add_assoc]
  exact sequence_cons_eq_some.2 ⟨_, _, _, hws, sequence_cons_eq_some.2 ⟨_, _, _, hcomment,
    sequence_cons_eq_some.2 ⟨_, _, _, hnewline, outcome_sequence_nil _, rfl⟩, rfl⟩, rfl⟩

/-- A preamble takes idle lines and goes on behind them. -/
theorem outcome_preamble_idle {lead : List Char} (h : Idle lead) (offset : Nat) (rest : List Char) :
    preamble.outcome table depth ⟨offset, lead ++ rest⟩ =
      preamble.outcome table depth ⟨offset + Chars.byteSize lead, rest⟩ := by
  induction h generalizing offset with
  | nil => rfl
  | @line blanks comment ending more hb hc he _ ih =>
    have hround := @outcome_blankLine_idle table depth comment blanks ending hb hc he offset (more ++ rest)
    have hpos : Chars.byteSize (blanks ++ comment ++ ending) ≠ 0 := by
      rw [Ne, Chars.byteSize_eq_zero]
      rcases he with rfl | rfl <;> simp
    have hbehind : (fun found : Cursor × Fragment => (found.1, found.2.behind [])) = id := by
      funext found
      obtain ⟨last, _ | _⟩ := found <;> rfl
    have hne : (⟨offset + Chars.byteSize (blanks ++ comment ++ ending), more ++ rest⟩ : Cursor) ≠
        ⟨offset, blanks ++ comment ++ ending ++ (more ++ rest)⟩ := by
      intro e
      have := congrArg Cursor.offset e
      simp only at this
      omega
    rw [List.append_assoc, preamble, many, outcome_repeated, hround]
    simp only [reduceCtorEq, ↓reduceIte, hne, Option.map_none, Nat.zero_sub]
    have hih := ih (offset + Chars.byteSize (blanks ++ comment ++ ending))
    rw [preamble, many] at hih
    rw [hih, Nat.add_assoc, ← Chars.byteSize_append]
    exact (congrArg (Option.map · _) hbehind).trans Option.map_id_apply

end

end Peg

/-! ## Documents -/

/-- The syntax tree when `lead` is put in front of the input: everything below the root is further on. -/
def Tree.behind (lead : String) (t : Tree) : Tree :=
  .mk ⟨lead ++ t.span.text, 0⟩ (mapFields (.shifted lead.utf8ByteSize) t.fields)

open Peg

/-- The root of a grammar goes on behind idle lines as it begins without them. -/
theorem outcome_root_idle (kind : Kind) (depth : Nat) {lead : String} (h : Idle lead.toList) (input : String) :
    kind.dialect.grammar.root.outcome kind.dialect.grammar.rules depth
      (.start (lead ++ input)) =
        (kind.dialect.grammar.root.outcome kind.dialect.grammar.rules depth
          (.start input)).map (shift lead.utf8ByteSize).result := by
  obtain ⟨header, body, hroot, -⟩ := exists_header kind
  rw [← outcome_shifted, hroot, outcome_sequence_cons, outcome_sequence_cons, Cursor.start,
    String.toList_append, outcome_preamble_idle h, Chars.byteSize_toList]
  rfl

/-- Idle lines in front of a document say nothing: it is parsed to the same syntax tree further on if it
is parsed at all, and it is of the same kind. -/
theorem parse_idle_append (kind : Kind) (depth : Nat) (r : Registry) {lead : String} (h : Idle lead.toList)
    (input : String) :
    (∀ tree, kind.dialect.grammar.parse depth (lead ++ input) = .ok tree ↔
      ∃ inner, kind.dialect.grammar.parse depth input = .ok inner ∧ tree = inner.behind lead) ∧
    r.detect (lead ++ input) = r.detect input := by
  have htree (fragment : Fragment) :
      ((fragment.map (shift lead.utf8ByteSize).token).toTree ⟨lead ++ input, 0⟩) =
        (fragment.toTree ⟨input, 0⟩).behind lead := by
    rw [Fragment.toTree, Fragment.toFields_map, Fragment.toTree]
    rfl
  have hdetect : r.detect (lead ++ input) = r.detect input := by
    rw [Registry.detect, Registry.detect, firstSignificantLine_eq, firstSignificantLine_eq,
      String.toList_append, find?_lines_idle h]
  refine ⟨fun tree => ?_, hdetect⟩
  rw [parse_eq_ok, outcome_root_idle kind depth h]
  constructor
  · rintro ⟨_, _, hm, hrest, rfl⟩
    obtain ⟨⟨last, fragment⟩, hinner, e⟩ := Option.map_eq_some_iff.1 hm
    obtain ⟨rfl, rfl⟩ := Prod.mk.inj e
    exact ⟨_, parse_eq_ok.2 ⟨last, fragment, hinner, hrest, rfl⟩, htree fragment⟩
  · rintro ⟨_, hinner, rfl⟩
    obtain ⟨last, fragment, hm, hrest, rfl⟩ := parse_eq_ok.1 hinner
    exact ⟨_, _, Option.map_eq_some_iff.2 ⟨_, hm, rfl⟩, hrest, (htree fragment).symm⟩

/-- A comment line and a line with a space, the one ended by a line feed alone and the other not. -/
theorem parse_idle_append_pie :
    Idle "%% a\n \r\n".toList ∧
      (∃ inner, Kind.pie.dialect.grammar.parse 20 "pie\n\"b\" : 1" = .ok inner ∧
        Kind.pie.dialect.grammar.parse 20 ("%% a\n \r\n" ++ "pie\n\"b\" : 1") =
          .ok (inner.behind "%% a\n \r\n")) ∧
      Registry.all.detect ("%% a\n \r\n" ++ "pie\n\"b\" : 1") = .ok .pie := by
  have hidle : Idle "%% a\n \r\n".toList :=
    @Idle.line [] ['%', '%', ' ', 'a'] ['\n'] _ (by simp) (.inr ⟨[' ', 'a'], rfl, by simp⟩) (.inl rfl)
      (@Idle.line [' '] [] ['\r', '\n'] _ (by simp) (.inl rfl) (.inr rfl) .nil)
  obtain ⟨htree, hdetect⟩ := parse_idle_append .pie 20 .all hidle "pie\n\"b\" : 1"
  have hok : (Kind.pie.dialect.grammar.parse 20 "pie\n\"b\" : 1").isOk = true := by decide +kernel
  cases hinner : Kind.pie.dialect.grammar.parse 20 "pie\n\"b\" : 1" with
  | error failure =>
    rw [hinner] at hok
    cases hok
  | ok inner =>
    exact ⟨hidle, ⟨inner, rfl, (htree _).2 ⟨inner, hinner, rfl⟩⟩,
      hdetect.trans ((opened_of_parse hinner).detect detector?_all)⟩

end DiagramText
