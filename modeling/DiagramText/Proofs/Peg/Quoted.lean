import DiagramText.Proofs.Peg.LineWise
import DiagramText.Proofs.Text.Quoting

/-!
# Quoted strings in front of texts

A quoted string ends at the first quote that no backslash takes along. So what was taken as a quoted string once is
taken as one wherever it stands (`takes_quoted`).

The rule only looks for the end of the string, and what the string stands for is up to `unquote`. The two agree on what
a backslash takes along: a text is put between quotes character by character, each as the rule takes it
(`escaped_encode`), so that the string ends at the last of the quotes whatever follows, and stands for the text again
(`quotedString_quote_iff`). Only line ends in the text are in the way, for a quoted string stays on its line.
-/

namespace DiagramText.Peg

/-- What may stand between quotes. -/
def quotedChar : Rule := .choice [.sequence [lit "\\", noneOf "\r\n"], noneOf "\"\\\r\n"]

variable {table table' : List (String × Rule)} {depth depth' : Nat} {first body more : List Char} {offset stop : Nat}
  {a : Fragment}

theorem chars_spans {set : CharClass} {cur next : Cursor}
    (h : (Rule.chars set).outcome table depth cur = some (next, a)) :
    ∃ c, set.contains c = true ∧ cur.Spans [c] next := by
  rw [outcome_chars, Option.map_eq_some_iff] at h
  obtain ⟨next', hnext, e⟩ := h
  obtain rfl : next' = next := (Prod.mk.inj e).1
  exact Cursor.next?_eq_some.1 hnext

/-- A backslash takes the next character of the line along. -/
theorem takes_escape {c : Char} (inLine : (CharClass.noneOf "\r\n".toList).contains c = true) (rest : List Char) :
    quotedChar.Takes table depth ['\\', c] rest fun _ => .fields [] := by
  have next : (noneOf "\r\n").Takes table depth [c] rest fun _ => .empty := takes_char inLine rest
  exact ((takes_lit "\\" _).skip rfl (next.skipLast rfl)).choice

/-- Other characters than quotes and backslashes stand for themselves. -/
theorem takes_plain {c : Char} (plain : (CharClass.noneOf "\"\\\r\n".toList).contains c = true) (rest : List Char) :
    quotedChar.Takes table depth [c] rest fun _ => .empty := by
  have noEscape : (Rule.sequence [lit "\\", noneOf "\r\n"]).Misses table depth ([c] ++ rest) := by
    refine (misses_lit ?_).sequence
    rintro ⟨_, e⟩
    obtain rfl : '\\' = c := (List.cons.inj e).1
    simp [CharClass.contains] at plain
  have one : (noneOf "\"\\\r\n").Takes table depth [c] rest fun _ => .empty := takes_char plain rest
  exact noEscape.choice one.choice

/-- A character between quotes, with the backslash in front of it, is taken whatever follows. -/
theorem takes_quotedChar (h : quotedChar.outcome table depth ⟨offset, first ++ more⟩ = some (⟨stop, more⟩, a))
    (rest : List Char) : first ≠ [] ∧ ∃ leaves, quotedChar.Takes table' depth' first rest leaves := by
  rw [quotedChar, outcome_choice_cons, Option.or_eq_some_iff] at h
  obtain h | ⟨-, h⟩ := h
  · obtain ⟨mid, _, _, hlit, h, -⟩ := sequence_cons_eq_some.1 h
    obtain ⟨_, hchar, -⟩ := sequence_singleton_eq_some.1 h
    obtain ⟨c, hc, hs⟩ := chars_spans hchar
    obtain rfl : first = ['\\', c] :=
      List.append_cancel_right (((lit_spans hlit).trans hs).rest)
    exact ⟨by simp, _, takes_escape hc rest⟩
  · rw [outcome_choice_cons, outcome_choice_nil, Option.or_none] at h
    obtain ⟨c, hc, hs⟩ := chars_spans h
    obtain rfl : first = [c] := List.append_cancel_right hs.rest
    exact ⟨by simp, _, takes_plain hc rest⟩

/-- What was taken between two quotes is taken there whatever follows. -/
theorem takes_quotedChars
    (h : (many quotedChar).outcome table depth ⟨offset, body ++ '"' :: more⟩ = some (⟨stop, '"' :: more⟩, a))
    (rest : List Char) : (many quotedChar).Takes table' depth' body ('"' :: rest) fun _ => .items [] := by
  induction hn : body.length using Nat.strongRecOn generalizing body offset a with
  | ind n ih =>
    obtain ⟨rfl, -, -⟩ | ⟨b, -, hr, -⟩ | ⟨first, later, b, c, hne, rfl, -, hr, hrounds⟩ := exists_of_many h
    · exact Rule.Misses.many fun _ => rfl
    · have := (@takes_quotedChar table table' depth depth' [] _ _ _ _ hr []).1
      exact absurd rfl this
    · have shorter : later.length < n := by
        rw [← hn, List.length_append]
        have := List.length_pos_iff.2 hne
        omega
      obtain ⟨-, leaves, takes⟩ := takes_quotedChar hr (later ++ '"' :: rest)
      exact takes.manySkip rfl hne (ih later.length shorter hrounds rfl)

/-- A quoted text is taken whatever follows it. -/
theorem takes_quoted {text : List Char}
    (h : quotedString.outcome table depth ⟨offset, text ++ more⟩ = some (⟨stop, more⟩, a)) :
    ∃ body, text = '"' :: (body ++ ['"']) ∧
      ∀ rest, quotedString.Takes table' depth' text rest fun _ => .fields [] := by
  rw [quotedString, outcome_labelled] at h
  obtain ⟨_, later, _, _, rfl, -, hopen, h⟩ := exists_of_sequence_cons h
  obtain ⟨body, close, _, _, rfl, -, hbody, h⟩ := exists_of_sequence_cons h
  obtain ⟨_, hclose, -⟩ := sequence_singleton_eq_some.1 h
  obtain rfl := List.append_cancel_right (lit_spans hopen).rest
  obtain rfl := List.append_cancel_right (lit_spans hclose).rest
  rw [outcome_quiet] at hbody
  refine ⟨body, by simp, fun rest => ?_⟩
  have close := @takes_lit table' depth' "\"" rest
  have inside := @takes_quotedChars table table' depth depth' _ _ _ _ _ hbody rest
  exact ((takes_lit "\"" _).skip rfl (inside.quiet.skip rfl (close.skipLast rfl))).labelled "quoted string"

/-! ## Texts between quotes -/

/-- What is put between quotes: characters of the line, of which quotes and backslashes have a backslash in front of
them, and others may have one. -/
inductive Escaped : List Char → Prop
  | nil : Escaped []
  | plain {c cs} (hc : c ≠ '"' ∧ c ≠ '\\' ∧ c ≠ '\r' ∧ c ≠ '\n') (h : Escaped cs) : Escaped (c :: cs)
  | escape {c cs} (hc : c ≠ '\r' ∧ c ≠ '\n') (h : Escaped cs) : Escaped ('\\' :: c :: cs)

theorem Escaped.takes_many (h : Escaped body) (rest : List Char) :
    (many quotedChar).Takes table depth body ('"' :: rest) fun _ => .items [] := by
  induction h with
  | nil => exact Rule.Misses.many fun _ => rfl
  | @plain c cs hc _ ih =>
    have one : quotedChar.Takes table depth [c] (cs ++ '"' :: rest) fun _ => .empty :=
      takes_plain (by simp_all [CharClass.contains]) _
    exact one.manySkip rfl (by simp) ih
  | @escape c cs hc _ ih =>
    have pair : quotedChar.Takes table depth ['\\', c] (cs ++ '"' :: rest) fun _ => .fields [] :=
      takes_escape (by simp [CharClass.contains, hc]) _
    exact pair.manySkip rfl (by simp) ih

/-- With quotes around it, it is taken whatever follows. -/
theorem Escaped.takes_quoted (h : Escaped body) (rest : List Char) :
    quotedString.Takes table depth ('"' :: (body ++ ['"'])) rest fun _ => .fields [] := by
  have close : (lit "\"").Takes table depth ['"'] rest fun _ => .empty := takes_lit "\"" rest
  have inside := (h.takes_many rest).quiet.skip rfl (close.skipLast rfl)
  exact ((takes_lit "\"" _).skip rfl inside).labelled "quoted string"

theorem escaped_encode {cs : List Char} (h : ∀ c ∈ cs, c ≠ '\r' ∧ c ≠ '\n') : Escaped (Quoted.encode cs) := by
  induction cs with
  | nil => exact .nil
  | cons c cs ih =>
    obtain ⟨inLine, others⟩ := List.forall_mem_cons.1 h
    rw [Quoted.encode]
    split
    · exact .escape inLine (ih others)
    · exact .plain (by simp_all) (ih others)

/-- A text in quotes is taken up to the quote at its end, for the others are escaped. -/
theorem takes_quotedString {s : String} (h : ∀ c ∈ s.toList, c ≠ '\r' ∧ c ≠ '\n') (rest : List Char) :
    quotedString.Takes table depth (quote s).toList rest fun _ => .fields [] := by
  rw [toList_quote]
  exact (escaped_encode h).takes_quoted rest

/-- A quoted string holds no line end. -/
theorem not_mem_of_quoted {text : List Char}
    (h : quotedString.outcome table depth ⟨offset, text ++ more⟩ = some (⟨stop, more⟩, a)) :
    ∀ c ∈ text, c ≠ '\r' ∧ c ≠ '\n' := by
  obtain ⟨-, -, takes⟩ := @takes_quoted table table depth depth _ _ _ _ _ h
  have noReturn : '\r' ∉ text := (takes []).not_mem rfl rfl (by decide)
  have noFeed : '\n' ∉ text := (takes []).not_mem rfl rfl (by decide)
  rintro c hc
  constructor
  · rintro rfl
    exact noReturn hc
  · rintro rfl
    exact noFeed hc

/-- Wherever a text stands between quotes, with quotes and backslashes escaped, the rule of quoted strings matches
exactly that if and only if the text holds no line end, and the string stands for the text. -/
theorem quotedString_quote_iff (table : List (String × Rule)) (depth : Nat) (silent : Bool) (offset : Nat)
    (f : Frontier) (s t : String) :
    ((quotedString.matchWithin table depth silent ⟨offset, (quote s ++ t).toList⟩ f).1 =
        some (⟨offset + (quote s).utf8ByteSize, t.toList⟩, .fields []) ↔ ∀ c ∈ s.toList, c ≠ '\r' ∧ c ≠ '\n') ∧
      unquote (quote s) = s := by
  refine ⟨?_, unquote_quote s⟩
  rw [matchWithin_fst, String.toList_append, ← Chars.byteSize_toList]
  constructor
  · intro found c hc
    refine not_mem_of_quoted found c ?_
    rw [toList_quote]
    exact List.mem_cons_of_mem _ (List.mem_append_left _ (Quoted.mem_encode hc))
  · exact fun inLine => takes_quotedString inLine t.toList offset

end DiagramText.Peg
