import DiagramText.Proofs.Text.Separated

/-!
# Keys and values in a text

A value between quotes ends at the next quote of its kind, so it may hold anything but that: the commas, colons and
braces that end a value without quotes, and the other quote (`value_quoted`). With blanks around its key and around
its value a pair is read up to what follows it (`pair_chars`), and from pair to pair so is a list with commas between
them (`separated_text`). So a text that lists pairs is read as these pairs (`keyValues?_text`).
-/

namespace DiagramText.Separated

open Chars

/-- A pair together with the quotes around its value and the blanks between its parts. -/
structure WrittenPair where
  key : String
  value : String
  quote : Char
  beforeKey : List Char
  behindKey : List Char
  beforeValue : List Char
  behindValue : List Char

namespace WrittenPair

/-- The pair that is written. -/
def entry (p : WrittenPair) : String × String := (p.key, p.value)

/-- What stands in the text. -/
def chars (p : WrittenPair) : List Char :=
  p.beforeKey ++ p.key.toList ++ p.behindKey ++ [':'] ++
    p.beforeValue ++ [p.quote] ++ p.value.toList ++ [p.quote] ++ p.behindValue

/-- The value may hold everything but the quotes that it stands in. -/
structure WellFormed (p : WrittenPair) : Prop where
  key_ne : p.key ≠ ""
  key_word : ∀ c ∈ p.key.toList, isKeyChar c = true
  quote_kind : p.quote = '"' ∨ p.quote = '\''
  value_free : p.quote ∉ p.value.toList
  beforeKey_blank : ∀ c ∈ p.beforeKey, isBlank c = true
  behindKey_blank : ∀ c ∈ p.behindKey, isBlank c = true
  beforeValue_blank : ∀ c ∈ p.beforeValue, isBlank c = true
  behindValue_blank : ∀ c ∈ p.behindValue, isBlank c = true

instance (p : WrittenPair) : Decidable p.WellFormed :=
  decidable_of_iff
    (p.key ≠ "" ∧ (∀ c ∈ p.key.toList, isKeyChar c = true) ∧ (p.quote = '"' ∨ p.quote = '\'') ∧
      p.quote ∉ p.value.toList ∧ (∀ c ∈ p.beforeKey, isBlank c = true) ∧ (∀ c ∈ p.behindKey, isBlank c = true) ∧
      (∀ c ∈ p.beforeValue, isBlank c = true) ∧ ∀ c ∈ p.behindValue, isBlank c = true)
    ⟨fun ⟨ne, word, kind, free, b₁, b₂, b₃, b₄⟩ => ⟨ne, word, kind, free, b₁, b₂, b₃, b₄⟩,
      fun ⟨ne, word, kind, free, b₁, b₂, b₃, b₄⟩ => ⟨ne, word, kind, free, b₁, b₂, b₃, b₄⟩⟩

/-- The pair without the blanks in front of its key. -/
def unindented (p : WrittenPair) : WrittenPair := { p with beforeKey := [] }

theorem WellFormed.unindented {p : WrittenPair} (h : p.WellFormed) : p.unindented.WellFormed :=
  { h with beforeKey_blank := nofun }

end WrittenPair

/-- The text of a list of pairs: commas stand between them, and one more may stand behind the last. -/
def text (ps : List WrittenPair) (trailing : Bool) (behind : List Char) : List Char :=
  [','].intercalate (ps.map WrittenPair.chars) ++ (if trailing then [','] else []) ++ behind

variable {p : WrittenPair} {ps : List WrittenPair} {quote : Char} {inside blanks behind : List Char}

/-! ## Values -/

theorem quotedBy_append (h : quote ∉ inside) (rest : List Char) :
    quotedBy quote (quote :: (inside ++ quote :: rest)) = some (inside, rest) := by
  have cut : (inside ++ quote :: rest).span (· != quote) = (inside, quote :: rest) := by
    refine span_eq_iff.2 ⟨rfl, fun c hc => bne_iff_ne.2 fun e => h (e ▸ hc), fun c hc => ?_⟩
    obtain rfl : quote = c := Option.some.inj hc
    exact bne_self_eq_false quote
  simp only [quotedBy, if_pos, cut]

theorem quotedBy_of_ne {c : Char} (h : c ≠ quote) (rest : List Char) : quotedBy quote (c :: rest) = none := by
  rw [quotedBy, if_neg h]

theorem not_isBlank_quote (h : quote = '"' ∨ quote = '\'') : isBlank quote = false := by
  rcases h with rfl | rfl <;> rfl

/-- A value in quotes is read up to the quote that closes it, with the blanks around it. -/
theorem value_quoted (kind : quote = '"' ∨ quote = '\'') (free : quote ∉ inside)
    (hblanks : ∀ c ∈ blanks, isBlank c = true) (rest : List Char) :
    value (blanks ++ quote :: (inside ++ quote :: rest)) = (inside, Chars.trimStart rest) := by
  have start : Chars.trimStart (blanks ++ quote :: (inside ++ quote :: rest)) = quote :: (inside ++ quote :: rest) := by
    rw [trimStart_append_of_blank hblanks, trimStart_cons_of_not_blank (not_isBlank_quote kind)]
  have read := quotedBy_append free rest
  rcases kind with rfl | rfl
  · simp [value, padded, start, read]
  · -- The other kind of quotes is tried first.
    have other := quotedBy_of_ne (show '\'' ≠ '"' by decide) (inside ++ '\'' :: rest)
    simp [value, padded, start, read, other]

/-! ## Pairs -/

theorem not_isBlank_of_isKeyChar {c : Char} (h : isKeyChar c = true) : isBlank c = false :=
  not_isBlank_of_class (by decide +kernel) h

theorem not_isKeyChar_of_isBlank {c : Char} (h : isBlank c = true) : isKeyChar c = false := by
  cases hc : isKeyChar c with
  | false => rfl
  | true => exact h.symm.trans (not_isBlank_of_isKeyChar hc)

/-- Behind the key and its colon stands the value. -/
theorem pair_key {key : List Char} (hne : key ≠ []) (hkey : ∀ c ∈ key, isKeyChar c = true)
    (hblanks : ∀ c ∈ blanks, isBlank c = true) (rest : List Char) :
    pair (key ++ (blanks ++ ':' :: rest)) =
      some ((String.ofList key, String.ofList (value rest).1), (value rest).2) := by
  obtain ⟨first, key, rfl⟩ := List.exists_cons_of_ne_nil hne
  have start : Chars.trimStart (first :: key ++ (blanks ++ ':' :: rest)) = first :: key ++ (blanks ++ ':' :: rest) :=
    trimStart_cons_of_not_blank (not_isBlank_of_isKeyChar (hkey first List.mem_cons_self)) _
  have stop : ∀ c ∈ (blanks ++ ':' :: rest).head?, isKeyChar c = false := by
    intro c hc
    rw [List.head?_append, Option.mem_def] at hc
    cases blanks with
    | nil =>
      obtain rfl : ':' = c := Option.some.inj hc
      decide
    | cons blank blanks =>
      obtain rfl : blank = c := Option.some.inj hc
      exact not_isKeyChar_of_isBlank (hblanks blank List.mem_cons_self)
  have cut : (first :: key ++ (blanks ++ ':' :: rest)).span isKeyChar = (first :: key, blanks ++ ':' :: rest) :=
    span_eq_iff.2 ⟨rfl, hkey, stop⟩
  have colon : skipChar ':' (Chars.trimStart (blanks ++ ':' :: rest)) = some rest := by
    rw [trimStart_append_of_blank hblanks, skipChar_first rfl]
  simp only [pair, start, cut, colon, Option.map_some]

theorem pair_trimStart (cs : List Char) : pair (Chars.trimStart cs) = pair cs := by
  rw [pair, trimStart_trimStart, ← pair]

namespace WrittenPair

theorem chars_append (p : WrittenPair) (rest : List Char) :
    p.chars ++ rest = p.beforeKey ++ (p.unindented.chars ++ rest) := by
  simp [chars, unindented]

theorem unindented_chars_append (p : WrittenPair) (rest : List Char) :
    p.unindented.chars ++ rest = p.key.toList ++ (p.behindKey ++ ':' ::
      (p.beforeValue ++ p.quote :: (p.value.toList ++ p.quote :: (p.behindValue ++ rest)))) := by
  simp [chars, unindented]

end WrittenPair

/-- A pair starts with its key once the blanks in front of it are gone. -/
theorem trimStart_chars (h : p.WellFormed) (rest : List Char) :
    Chars.trimStart (p.chars ++ rest) = p.unindented.chars ++ rest := by
  rw [p.chars_append, trimStart_append_of_blank h.beforeKey_blank, p.unindented_chars_append]
  obtain ⟨first, key, e⟩ := List.exists_cons_of_ne_nil (String.toList_eq_nil_iff.not.2 h.key_ne)
  have full : isBlank first = false := not_isBlank_of_isKeyChar (h.key_word first (by simp [e]))
  rw [e]
  exact trimStart_cons_of_not_blank full _

theorem pair_chars (h : p.WellFormed) (rest : List Char) :
    pair (p.chars ++ rest) = some (p.entry, Chars.trimStart rest) := by
  rw [← pair_trimStart, trimStart_chars h, p.unindented_chars_append,
    pair_key (String.toList_eq_nil_iff.not.2 h.key_ne) h.key_word h.behindKey_blank,
    value_quoted h.quote_kind h.value_free h.beforeValue_blank, trimStart_append_of_blank h.behindValue_blank,
    String.ofList_toList, String.ofList_toList]
  rfl

theorem pair_of_blank (h : ∀ c ∈ blanks, isBlank c = true) : pair blanks = none := by
  rw [pair, trimStart_of_blank h]
  rfl

/-! ## Lists -/

theorem text_nil (behind : List Char) : text [] false behind = behind := rfl

theorem text_singleton (p : WrittenPair) (trailing : Bool) (behind : List Char) :
    text [p] trailing behind = p.chars ++ if trailing then ',' :: behind else behind := by
  cases trailing <;> simp [text]

theorem text_cons_cons (p next : WrittenPair) (ps : List WrittenPair) (trailing : Bool) (behind : List Char) :
    text (p :: next :: ps) trailing behind = p.chars ++ ',' :: text (next :: ps) trailing behind := by
  simp [text]

theorem length_le_text (ps : List WrittenPair) (trailing : Bool) (behind : List Char) :
    ps.length ≤ (text ps trailing behind).length := by
  induction ps with
  | nil => exact Nat.zero_le _
  | cons p ps ih =>
    cases ps with
    | nil =>
      simp [text, WrittenPair.chars]
      omega
    | cons next ps =>
      rw [text_cons_cons]
      simp only [List.length_append, List.length_cons] at ih ⊢
      omega

/-- A list is read from pair to pair. -/
theorem separated_text (h : ∀ p ∈ ps, p.WellFormed) (hne : ps ≠ []) (trailing : Bool)
    (hbehind : ∀ c ∈ behind, isBlank c = true) {clock : List Char} (hclock : ps.length ≤ clock.length) :
    separated pair (skipChar ',') true clock (text ps trailing behind) =
      (ps.map WrittenPair.entry, if trailing then behind else []) := by
  induction ps generalizing clock with
  | nil => exact absurd rfl hne
  | cons p ps ih =>
    obtain ⟨tick, clock, rfl⟩ := List.exists_cons_of_length_pos (Nat.lt_of_lt_of_le (Nat.succ_pos _) hclock)
    obtain ⟨hp, hps⟩ := List.forall_mem_cons.1 h
    cases ps with
    | nil =>
      rw [text_singleton]
      cases trailing with
      | false =>
        have read := pair_chars hp behind
        rw [trimStart_of_blank hbehind] at read
        exact separated_last read rfl
      | true => exact separated_trailing (pair_chars hp _) (skipChar_first rfl behind) (pair_of_blank hbehind)
    | cons next ps =>
      have more := ih hps (List.cons_ne_nil next ps) (Nat.le_of_succ_le_succ hclock)
      rw [text_cons_cons]
      exact separated_more (pair_chars hp _) (skipChar_first rfl _) more

/-- The text of a list starts with the first key once the blanks in front of it are gone. -/
theorem trimStart_text (h : p.WellFormed) (ps : List WrittenPair) (trailing : Bool) (behind : List Char) :
    Chars.trimStart (text (p :: ps) trailing behind) = text (p.unindented :: ps) trailing behind := by
  cases ps with
  | nil => rw [text_singleton, text_singleton, trimStart_chars h]
  | cons next ps => rw [text_cons_cons, text_cons_cons, trimStart_chars h]

/-- A text is read as the pairs that it lists. -/
theorem keyValues?_text (ps : List WrittenPair) (trailing : Bool) (behind : List Char)
    (h : ∀ p ∈ ps, p.WellFormed) (some_listed : trailing = true → ps ≠ [])
    (hbehind : ∀ c ∈ behind, isBlank c = true) :
    keyValues? (String.ofList (text ps trailing behind)) = some (ps.map WrittenPair.entry) := by
  rw [keyValues?, String.toList_ofList, whole]
  cases ps with
  | nil =>
    obtain rfl : trailing = false := Bool.eq_false_iff.2 fun e => some_listed e rfl
    rw [text_nil, trimStart_of_blank hbehind]
    rfl
  | cons p ps =>
    obtain ⟨hp, hps⟩ := List.forall_mem_cons.1 h
    have read := separated_text (List.forall_mem_cons.2 ⟨hp.unindented, hps⟩) (List.cons_ne_nil _ ps)
      trailing hbehind (length_le_text (p.unindented :: ps) trailing behind)
    have gone : Chars.trimStart (if trailing then behind else []) = [] := by
      cases trailing with
      | false => rfl
      | true => exact trimStart_of_blank hbehind
    simp only [trimStart_text hp, read, gone]
    rfl

theorem keyValues?_text_of_marks :
    keyValues? " a\t: \n\"x,y:\x7d'\" ,\u3000b_2-é:'q\"' ,--:\"\",\u00a0" =
      some [("a", "x,y:\x7d'"), ("b_2-é", "q\""), ("--", "")] :=
  keyValues?_text
    [ { key := "a", value := "x,y:\x7d'", quote := '"'
        beforeKey := [' '], behindKey := ['\t'], beforeValue := [' ', '\n'], behindValue := [' '] },
      { key := "b_2-é", value := "q\"", quote := '\''
        beforeKey := ['\u3000'], behindKey := [], beforeValue := [], behindValue := [' '] },
      { key := "--", value := "", quote := '"'
        beforeKey := [], behindKey := [], beforeValue := [], behindValue := [] }]
    true ['\u00a0'] (by decide) (by decide) (by decide)

end DiagramText.Separated
