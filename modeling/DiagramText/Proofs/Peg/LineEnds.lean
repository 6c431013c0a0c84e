import DiagramText.Proofs.Peg.Lexeme
import DiagramText.Proofs.Peg.Transport
import DiagramText.Proofs.Text.Returns

/-!
# Either line end

A text whose lines end with line feeds may have a carriage return before each of them as well. What stands
at a position is then found further on by the number of line feeds before it (`offsetWithReturns`), and the
positions and spans of the text are carried along by `addReturns`.

Rules match alike at a position and at its image when they name line ends in one of three ways only: as
`newline` does, by a run of characters that takes carriage returns exactly if it takes line feeds, or by
looking ahead for a character of such a class. `Rule.matchesAlike` decides it, and `carries_of_matchesAlike`
says that such a rule is carried. A carriage return that stands in the text already would not be doubled,
so that the text must have none.
-/

namespace DiagramText

/-! ## Positions -/

namespace Chars

theorem takeBytes_zero (cs : List Char) : takeBytes 0 cs = [] := by
  cases cs with
  | nil => rfl
  | cons c cs => exact if_neg (Nat.not_le.2 c.utf8Size_pos)

theorem takeBytes_prefix_of_le {m n : Nat} (h : m ≤ n) (cs : List Char) :
    takeBytes m cs <+: takeBytes n cs := by
  induction cs generalizing m n with
  | nil => exact List.prefix_refl []
  | cons c cs ih =>
    rw [takeBytes, takeBytes]
    split
    · rw [if_pos (by omega)]
      exact List.cons_prefix_cons.2 ⟨rfl, ih (Nat.sub_le_sub_right h _)⟩
    · exact List.nil_prefix

end Chars

/-- Where what stands at an offset of the text is found with a carriage return before every line feed. -/
def offsetWithReturns (source : String) (offset : Nat) : Nat :=
  offset + (charsBefore source offset).count '\n'

section

variable {source : String}

theorem offsetWithReturns_zero (source : String) : offsetWithReturns source 0 = 0 := by
  rw [offsetWithReturns, charsBefore, Chars.takeBytes_zero]
  rfl

theorem offsetWithReturns_lt {m n : Nat} (h : m < n) :
    offsetWithReturns source m < offsetWithReturns source n :=
  Nat.add_lt_add_of_lt_of_le h
    ((Chars.takeBytes_prefix_of_le (Nat.le_of_lt h) source.toList).sublist.count_le '\n')

theorem offsetWithReturns_le_iff {m n : Nat} :
    offsetWithReturns source m ≤ offsetWithReturns source n ↔ m ≤ n := by
  rcases Nat.lt_trichotomy m n with h | rfl | h
  · simp [Nat.le_of_lt h, Nat.le_of_lt (offsetWithReturns_lt h)]
  · simp
  · simp [Nat.not_le.2 h, Nat.not_le.2 (offsetWithReturns_lt h)]

theorem offsetWithReturns_inj {m n : Nat}
    (h : offsetWithReturns source m = offsetWithReturns source n) : m = n :=
  Nat.le_antisymm (offsetWithReturns_le_iff.1 (Nat.le_of_eq h))
    (offsetWithReturns_le_iff.1 (Nat.le_of_eq h.symm))

theorem offsetWithReturns_max (m n : Nat) :
    offsetWithReturns source (max m n) = max (offsetWithReturns source m) (offsetWithReturns source n) := by
  rcases Nat.le_total m n with h | h
  · rw [Nat.max_eq_right h, Nat.max_eq_right (offsetWithReturns_le_iff.2 h)]
  · rw [Nat.max_eq_left h, Nat.max_eq_left (offsetWithReturns_le_iff.2 h)]

end

namespace Peg

/-- The position where what stands at `cur` is found with a carriage return before every line feed. -/
def Cursor.withReturns (source : String) (cur : Cursor) : Cursor :=
  ⟨offsetWithReturns source cur.offset, Chars.withReturns cur.rest⟩

section

variable {source : String} {cur next : Cursor} {text : List Char}

theorem offset_withReturns {before : List Char} (h : (Cursor.start source).Spans before cur) :
    (cur.withReturns source).offset = Chars.byteSize (Chars.withReturns before) := by
  have hoffset : cur.offset = Chars.byteSize before := by simpa [Cursor.start] using h.offset
  have hbefore : charsBefore source cur.offset = before := by
    rw [hoffset, charsBefore, show source.toList = before ++ cur.rest from h.rest, Chars.takeBytes_append]
  rw [Cursor.withReturns, offsetWithReturns, hbefore, hoffset, Chars.byteSize_withReturns]

/-- What lies between two positions lies between their images, with the carriage returns. -/
theorem spans_withReturns (hcur : (Cursor.start source).Reaches cur) (h : cur.Spans text next) :
    (cur.withReturns source).Spans (Chars.withReturns text) (next.withReturns source) := by
  obtain ⟨before, hbefore⟩ := hcur
  refine ⟨?_, ?_⟩
  · rw [Cursor.withReturns, Cursor.withReturns, h.rest, Chars.withReturns_append]
  · rw [offset_withReturns hbefore, offset_withReturns (hbefore.trans h), Chars.withReturns_append,
      Chars.byteSize_append]

end

/-- Carriage returns before the line feeds of a text move its positions and spans. -/
def addReturns (source : String) : Transport where
  Valid cur := (Cursor.start source).Reaches cur
  cursor := .withReturns source
  token t := ⟨withReturns t.text, offsetWithReturns source t.offset⟩
  valid_of_reaches := Cursor.Reaches.trans
  cursor_inj _ hreach e := hreach.eq_of_offset (offsetWithReturns_inj (congrArg Cursor.offset e))
  spanTo_cursor := by
    rintro cur next hcur ⟨text, h⟩
    rw [(spans_withReturns hcur h).spanTo, h.spanTo, withReturns, String.toList_ofList]
    rfl

theorem Transport.Carries.outcome_withReturns {source : String} {table : List (String × Rule)} {depth : Nat}
    {r : Rule} (h : (addReturns source).Carries table depth r) {cur : Cursor}
    (hcur : (Cursor.start source).Reaches cur) :
    r.outcome table depth (cur.withReturns source) =
      (r.outcome table depth cur).map (addReturns source).result :=
  h cur hcur

theorem start_withReturns (source : String) :
    (Cursor.start source).withReturns source = .start (withReturns source) := by
  rw [Cursor.start, Cursor.withReturns, offsetWithReturns_zero, Cursor.start, toList_withReturns]

/-! ## Rules that match alike -/

/-- Whether a character is no part of a line end. -/
def isInLine (c : Char) : Bool := c != '\r' && c != '\n'

/-- Whether a class has carriage returns exactly if it has line feeds. -/
def CharClass.isEven (set : CharClass) : Bool := set.contains '\r' == set.contains '\n'

namespace Rule

/-- The class that the rule takes one character of. -/
def class? : Rule → Option CharClass
  | chars set => some set
  | _ => none

/-- Whether the rule takes a line feed, with or without a carriage return before it. -/
def isLineEnd : Rule → Bool
  | choice [literal first false, literal second false] => first == "\r\n" && second == "\n"
  | _ => false

mutual

/-- Whether the rule matches the same with a carriage return before every line feed. -/
def matchesAlike : Rule → Bool
  | literal text _ => text.toList.all isInLine
  | chars set => !set.contains '\r' && !set.contains '\n'
  | sequence rules | choice rules => allMatchAlike rules
  | repeated r least most =>
    r.matchesAlike || (least == 0 && most.isNone && r.class?.any CharClass.isEven)
  | optional r | capture _ r | quiet r => r.matchesAlike
  | notAhead r => r.matchesAlike || r.class?.any CharClass.isEven
  | labelled _ r => r.isLineEnd || r.matchesAlike
  | ref _ => true

/-- Whether each of the rules matches the same with a carriage return before every line feed. -/
def allMatchAlike : List Rule → Bool
  | [] => true
  | r :: rules => r.matchesAlike && allMatchAlike rules

end

end Rule

theorem matchesAlike_of_mem {rules : List Rule} (h : Rule.allMatchAlike rules = true) {r : Rule}
    (hr : r ∈ rules) : r.matchesAlike = true := by
  induction rules with
  | nil => cases hr
  | cons first rules ih =>
    rw [Rule.allMatchAlike, Bool.and_eq_true] at h
    obtain rfl | hr := List.mem_cons.1 hr
    · exact h.1
    · exact ih h.2 hr

section

variable {source : String} {table : List (String × Rule)} {depth : Nat} {r : Rule}

theorem skip?_withReturns {text : String} (htext : ∀ c ∈ text.toList, c ≠ '\r' ∧ c ≠ '\n')
    (anyCase : Bool) {cur : Cursor} (hcur : (Cursor.start source).Reaches cur) :
    (cur.withReturns source).skip? text anyCase =
      (cur.skip? text anyCase).map (.withReturns source) := by
  have hdrop :
      (if anyCase then Chars.dropStartAnyCase? text.toList (Chars.withReturns cur.rest)
        else Chars.dropStart? text.toList (Chars.withReturns cur.rest)) =
      (if anyCase then Chars.dropStartAnyCase? text.toList cur.rest
        else Chars.dropStart? text.toList cur.rest).map Chars.withReturns := by
    cases anyCase
    · exact Chars.dropStart?_withReturns htext cur.rest
    · exact Chars.dropStartAnyCase?_withReturns htext cur.rest
  cases hnext : cur.skip? text anyCase with
  | none =>
    rw [Cursor.skip?, Option.map_eq_none_iff] at hnext
    rw [Cursor.skip?, Cursor.withReturns, hdrop, hnext]
    rfl
  | some next =>
    obtain ⟨found, hfound, hspans⟩ := Cursor.skip?_eq_some.1 hnext
    have himage := spans_withReturns hcur hspans
    rw [Chars.withReturns_of_not_mem (Spells.not_mem hfound rfl rfl fun h => (htext _ h).2 rfl)] at himage
    exact Cursor.skip?_eq_some.2 ⟨found, hfound, himage⟩

theorem carries_literal {text : String} (h : text.toList.all isInLine = true) (anyCase : Bool) :
    (addReturns source).Carries table depth (.literal text anyCase) := by
  intro cur hcur
  rw [outcome_literal, outcome_literal, addReturns,
    skip?_withReturns (by simpa [isInLine] using h) anyCase hcur, Option.map_map, Option.map_map]
  rfl

theorem next?_withReturns {set : CharClass} (hreturn : set.contains '\r' = false)
    (hfeed : set.contains '\n' = false) {cur : Cursor} (hcur : (Cursor.start source).Reaches cur) :
    (cur.withReturns source).next? set = (cur.next? set).map (.withReturns source) := by
  cases hnext : cur.next? set with
  | none =>
    rw [Cursor.next?_eq_none] at hnext
    refine Cursor.next?_eq_none.2 fun c rest hrest => ?_
    cases hcs : cur.rest with
    | nil => simp [Cursor.withReturns, hcs] at hrest
    | cons d cs =>
      rw [Cursor.withReturns, hcs] at hrest
      by_cases hd : d = '\n'
      · subst hd
        obtain ⟨rfl, -⟩ := List.cons.inj hrest
        exact hreturn
      · rw [Chars.withReturns_cons hd] at hrest
        obtain ⟨rfl, -⟩ := List.cons.inj hrest
        exact hnext d cs hcs
  | some next =>
    obtain ⟨c, hc, hspans⟩ := Cursor.next?_eq_some.1 hnext
    have himage := spans_withReturns hcur hspans
    rw [Chars.withReturns_cons fun e => Bool.false_ne_true ((e ▸ hfeed).symm.trans hc)] at himage
    exact Cursor.next?_eq_some.2 ⟨c, hc, himage⟩

theorem carries_chars {set : CharClass} (h : (Rule.chars set).matchesAlike = true) :
    (addReturns source).Carries table depth (.chars set) := by
  obtain ⟨hreturn, hfeed⟩ : set.contains '\r' = false ∧ set.contains '\n' = false := by
    simpa [Rule.matchesAlike] using h
  intro cur hcur
  rw [outcome_chars, outcome_chars, addReturns, next?_withReturns hreturn hfeed hcur, Option.map_map,
    Option.map_map]
  rfl

theorem past_withReturns {set : CharClass} (h : set.isEven = true) {cur : Cursor}
    (hcur : (Cursor.start source).Reaches cur) :
    (cur.withReturns source).past set.contains = (cur.past set.contains).withReturns source := by
  have heven : set.contains '\r' = set.contains '\n' := eq_of_beq h
  have himage := spans_withReturns hcur (cur.spans_past set.contains)
  rw [← Chars.takeWhile_withReturns heven] at himage
  exact himage.unique ((cur.withReturns source).spans_past set.contains)

theorem carries_many_chars {set : CharClass} (h : set.isEven = true) :
    (addReturns source).Carries table depth (many (.chars set)) := by
  intro cur hcur
  rw [outcome_many_chars, outcome_many_chars, addReturns, past_withReturns h hcur]
  rfl

theorem next?_isSome_withReturns {set : CharClass} (h : set.isEven = true) (cur : Cursor) :
    ((cur.withReturns source).next? set).isSome = (cur.next? set).isSome := by
  have heven : set.contains '\r' = set.contains '\n' := eq_of_beq h
  obtain ⟨offset, _ | ⟨c, rest⟩⟩ := cur
  · rfl
  · rw [Cursor.withReturns, Chars.withReturns]
    by_cases hc : c = '\n'
    · subst hc
      simp only [Cursor.next?, ↓reduceIte, heven]
      split <;> rfl
    · simp only [Cursor.next?, hc, ↓reduceIte]
      split <;> rfl

theorem carries_notAhead_chars {set : CharClass} (h : set.isEven = true) :
    (addReturns source).Carries table depth (.notAhead (.chars set)) := by
  intro cur hcur
  have hsome := @next?_isSome_withReturns source set h cur
  rw [outcome_notAhead, outcome_notAhead, outcome_chars, outcome_chars, addReturns]
  cases hnext : cur.next? set with
  | none =>
    rw [hnext, Option.isSome_none, Option.isSome_eq_false_iff, Option.isNone_iff_eq_none] at hsome
    rw [hsome]
    rfl
  | some next =>
    rw [hnext, Option.isSome_some] at hsome
    obtain ⟨next', hnext'⟩ := Option.isSome_iff_exists.1 hsome
    rw [hnext']
    rfl

theorem exists_class (h : r.class?.any CharClass.isEven = true) :
    ∃ set, r = .chars set ∧ set.isEven = true := by
  cases r with
  | chars set => exact ⟨set, rfl, h⟩
  | _ => cases h

theorem eq_of_isLineEnd (h : r.isLineEnd = true) : r = .choice [lit "\r\n", lit "\n"] := by
  unfold Rule.isLineEnd at h
  split at h
  · simp only [Bool.and_eq_true, beq_iff_eq] at h
    rw [h.1, h.2]
    rfl
  · cases h

theorem not_mem_rest (hsource : '\r' ∉ source.toList) {cur : Cursor}
    (hcur : (Cursor.start source).Reaches cur) : '\r' ∉ cur.rest := by
  obtain ⟨before, hbefore⟩ := hcur
  have hchars : source.toList = before ++ cur.rest := hbefore.rest
  exact fun hmem => hsource (hchars ▸ List.mem_append_right before hmem)

/-- A line feed is found as a carriage return and a line feed. -/
theorem carries_newline (hsource : '\r' ∉ source.toList) :
    (addReturns source).Carries table depth newline := by
  rintro ⟨offset, rest⟩ hcur
  have hrest := not_mem_rest hsource hcur
  have hnone (inLine : ∀ c ∈ rest.head?, c ≠ '\r' ∧ c ≠ '\n') :
      newline.outcome table depth ((addReturns source).cursor ⟨offset, rest⟩) =
        (newline.outcome table depth ⟨offset, rest⟩).map (addReturns source).result := by
    have himage : ∀ c ∈ (Chars.withReturns rest).head?, c ≠ '\r' ∧ c ≠ '\n' := by
      cases rest with
      | nil => nofun
      | cons c rest =>
        rw [Chars.withReturns_cons (inLine c rfl).2]
        simpa using inLine c rfl
    rw [@outcome_newline_of_inLine _ _ ⟨offset, rest⟩ inLine, @outcome_newline_of_inLine _ _ _ himage]
    rfl
  cases rest with
  | nil => exact hnone (by simp)
  | cons c rest =>
    by_cases hc : c = '\n'
    · subst hc
      have hnext : (⟨offset, '\n' :: rest⟩ : Cursor).Spans ['\n'] ⟨offset + Chars.byteSize ['\n'], rest⟩ :=
        ⟨rfl, rfl⟩
      have hfeed := @outcome_newline_ending table depth ['\n'] (.inl rfl) offset rest
      have hreturn := @outcome_newline_ending table depth ['\r', '\n'] (.inr rfl)
        (offsetWithReturns source offset) (Chars.withReturns rest)
      have himage := (spans_withReturns hcur hnext).offset
      rw [List.singleton_append] at hfeed
      rw [hfeed]
      refine hreturn.trans (congrArg some (Prod.ext (Cursor.mk.injEq .. ▸ ⟨himage.symm, rfl⟩) rfl))
    · refine hnone fun d hd => ?_
      obtain rfl : c = d := Option.some.inj hd
      exact ⟨fun e => hrest (e ▸ List.mem_cons_self), hc⟩

/-- A rule that matches alike is carried if the rules that it refers to are. -/
theorem carries_of_refs (hsource : '\r' ∉ source.toList)
    (hrefs : ∀ name, (addReturns source).Carries table depth (.ref name)) (r : Rule)
    (h : r.matchesAlike = true) : (addReturns source).Carries table depth r := by
  induction r using Rule.ind with
  | literal text anyCase => exact carries_literal h anyCase
  | chars set => exact carries_chars h
  | sequence rules ih =>
    exact Transport.carries_sequence fun r hr => ih r hr (matchesAlike_of_mem h hr)
  | choice rules ih => exact Transport.carries_choice fun r hr => ih r hr (matchesAlike_of_mem h hr)
  | repeated r least most ih =>
    rw [Rule.matchesAlike, Bool.or_eq_true, Bool.and_eq_true, Bool.and_eq_true] at h
    rcases h with h | ⟨⟨hleast, hmost⟩, heven⟩
    · exact Transport.carries_repeated (ih h) least most
    · obtain ⟨set, rfl, heven⟩ := exists_class heven
      rw [beq_iff_eq] at hleast
      rw [Option.isNone_iff_eq_none] at hmost
      rw [hleast, hmost]
      exact carries_many_chars heven
  | optional r ih => exact Transport.carries_optional (ih h)
  | notAhead r ih =>
    rw [Rule.matchesAlike, Bool.or_eq_true] at h
    rcases h with h | heven
    · exact Transport.carries_notAhead (ih h)
    · obtain ⟨set, rfl, heven⟩ := exists_class heven
      exact carries_notAhead_chars heven
  | capture field r ih => exact Transport.carries_capture (ih h) field
  | labelled label r ih =>
    rw [Rule.matchesAlike, Bool.or_eq_true] at h
    rcases h with h | h
    · intro cur hcur
      have hnewline := @carries_newline source table depth hsource cur hcur
      rw [newline, outcome_labelled, outcome_labelled] at hnewline
      rwa [eq_of_isLineEnd h, outcome_labelled, outcome_labelled]
    · exact Transport.carries_labelled (ih h) label
  | quiet r ih => exact Transport.carries_quiet (ih h)
  | ref name => exact hrefs name

/-- A rule that matches alike is carried, if the rules of the table match alike. -/
theorem carries_of_matchesAlike (hsource : '\r' ∉ source.toList)
    (htable : ∀ name r, table.lookup name = some r → r.matchesAlike = true) (depth : Nat) (r : Rule)
    (h : r.matchesAlike = true) : (addReturns source).Carries table depth r := by
  induction depth generalizing r with
  | zero => exact carries_of_refs hsource Transport.carries_ref_zero r h
  | succ depth below =>
    exact carries_of_refs hsource
      (fun name => Transport.carries_ref fun r hl => below r (htable name r hl)) r h

end

end Peg

end DiagramText
