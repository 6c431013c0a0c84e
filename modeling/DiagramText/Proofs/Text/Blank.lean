import DiagramText.Text.Blank
import Mathlib.Data.List.DropRight
import Mathlib.Data.List.TakeDrop

/-!
# Lines and blanks

A character that is not blank stops the trimming of a text (`trimEnd_append_of_not_blank`), and a blank ends
its first word (`words_append`). The first line feed ends its first line (`lines_append_newline`). The last
line of a text need not be ended (`lines_append_start`).
-/

namespace DiagramText.Chars

section

variable {p : Char → Prop} [DecidablePred p]

-- What is said of the characters of a text could also be decided by a test of all characters there are.
instance (priority := 1100) decidableForallMemList (cs : List Char) : Decidable (∀ c ∈ cs, p c) :=
  List.decidableBAll p cs

instance (priority := 1100) decidableForallMemOption (c? : Option Char) : Decidable (∀ c ∈ c?, p c) :=
  Option.decidableForallMem c?

end

/-- A text is cut in front of the first character that is not of a kind. -/
theorem span_eq_iff {p : Char → Bool} {cs front rest : List Char} :
    cs.span p = (front, rest) ↔ cs = front ++ rest ∧ (∀ c ∈ front, p c = true) ∧ ∀ c ∈ rest.head?, p c = false := by
  rw [List.span_eq_takeWhile_dropWhile]
  constructor
  · intro h
    obtain ⟨rfl, rfl⟩ := Prod.mk.inj h
    refine ⟨List.takeWhile_append_dropWhile.symm, List.all_eq_true.1 List.all_takeWhile, fun c hc => ?_⟩
    have := List.head?_dropWhile_not p cs
    rw [hc] at this
    simpa using this
  · rintro ⟨rfl, hfront, hrest⟩
    rw [List.takeWhile_append_of_pos hfront, List.dropWhile_append_of_pos hfront]
    cases rest with
    | nil => simp
    | cons c rest => simp [hrest c rfl]

/-! ## Trimming -/

theorem trimStart_append_of_blank {blanks : List Char} (h : ∀ c ∈ blanks, isBlank c = true)
    (cs : List Char) : trimStart (blanks ++ cs) = trimStart cs :=
  List.dropWhile_append_of_pos h

theorem trimStart_of_blank {blanks : List Char} (h : ∀ c ∈ blanks, isBlank c = true) : trimStart blanks = [] :=
  List.dropWhile_eq_nil_iff.2 h

theorem trimStart_cons_of_not_blank {c : Char} (h : isBlank c = false) (cs : List Char) :
    trimStart (c :: cs) = c :: cs :=
  List.dropWhile_cons_of_neg (by rw [h]; decide)

@[simp] theorem trimEnd_nil : trimEnd [] = [] := rfl

/-- What lies in front of a character that is kept is not trimmed. -/
theorem trimEndBy_append_cons {p : Char → Bool} (as : List Char) {c : Char} (h : p c = false) (bs : List Char) :
    trimEndBy p (as ++ c :: bs) = as ++ c :: trimEndBy p bs := by
  have hstop : (c :: as.reverse).dropWhile p = c :: as.reverse :=
    List.dropWhile_cons_of_neg (by rw [h]; decide)
  rw [trimEndBy, List.reverse_append, List.reverse_cons, List.append_assoc,
    List.singleton_append, List.dropWhile_append, hstop]
  split
  · rename_i hempty
    rw [trimEndBy, List.isEmpty_iff.1 hempty]
    simp
  · rw [trimEndBy]
    simp

theorem trimEndBy_eq_self_iff {p : Char → Bool} {cs : List Char} :
    trimEndBy p cs = cs ↔ ∀ c ∈ cs.getLast?, p c = false := by
  refine List.rdropWhile_eq_self_iff.trans ?_
  cases cs with
  | nil => simp
  | cons c cs => simp [List.getLast?_eq_some_getLast]

/-- What lies in front of a character that is not blank is not trimmed. -/
theorem trimEnd_append_of_not_blank (as : List Char) {c : Char} (h : isBlank c = false)
    (bs : List Char) : trimEnd (as ++ c :: bs) = as ++ c :: trimEnd bs :=
  trimEndBy_append_cons as h bs

theorem trimEnd_cons_of_not_blank {c : Char} (h : isBlank c = false) (cs : List Char) :
    trimEnd (c :: cs) = c :: trimEnd cs :=
  trimEnd_append_of_not_blank [] h cs

theorem trim_cons_of_not_blank {c : Char} (h : isBlank c = false) (cs : List Char) :
    trim (c :: cs) = c :: trimEnd cs := by
  rw [trim, trimStart_cons_of_not_blank h, trimEnd_cons_of_not_blank h]

/-- What lies in front of a word is not trimmed either. -/
theorem trimEnd_append_word (as : List Char) {word : List Char} (hne : word ≠ [])
    (hword : ∀ c ∈ word, isBlank c = false) (bs : List Char) :
    trimEnd (as ++ (word ++ bs)) = as ++ (word ++ trimEnd bs) := by
  rcases List.eq_nil_or_concat word with rfl | ⟨front, last, rfl⟩
  · exact absurd rfl hne
  · rw [List.concat_eq_append] at hword ⊢
    have hlast : isBlank last = false := hword last (List.mem_append_right _ List.mem_cons_self)
    simpa using trimEnd_append_of_not_blank (as ++ front) hlast bs

/-- Trimming takes an end away. -/
theorem exists_append_trimEndBy (p : Char → Bool) (cs : List Char) :
    ∃ tail, cs = trimEndBy p cs ++ tail ∧ ∀ c ∈ tail, p c = true := by
  refine ⟨(cs.reverse.takeWhile p).reverse, ?_, fun c hc => ?_⟩
  · rw [trimEndBy, ← List.reverse_append, List.takeWhile_append_dropWhile, List.reverse_reverse]
  · exact List.all_eq_true.1 List.all_takeWhile c (List.mem_reverse.1 hc)

/-- Trimming takes a blank end away. -/
theorem exists_append_trimEnd (cs : List Char) :
    ∃ blanks, cs = trimEnd cs ++ blanks ∧ ∀ c ∈ blanks, isBlank c = true :=
  exists_append_trimEndBy isBlank cs

theorem trimEnd_isPrefix (cs : List Char) : trimEnd cs <+: cs := by
  obtain ⟨blanks, h, -⟩ := exists_append_trimEnd cs
  exact ⟨blanks, h.symm⟩

/-- Trimming only leaves characters out. -/
theorem trim_sublist (cs : List Char) : (trim cs).Sublist cs :=
  (trimEnd_isPrefix _).sublist.trans (List.dropWhile_sublist _)

theorem mem_of_mem_trim {cs : List Char} {c : Char} (h : c ∈ trim cs) : c ∈ cs := (trim_sublist cs).mem h

theorem trim_of_blank {blanks : List Char} (h : ∀ c ∈ blanks, isBlank c = true) :
    trim blanks = [] := by
  rw [trim, trimStart_of_blank h, trimEnd_nil]

/-- Only of a blank text does trimming leave nothing. -/
theorem all_isBlank_of_trim {cs : List Char} (h : trim cs = []) : ∀ c ∈ cs, isBlank c = true := by
  obtain ⟨blanks, e, hblanks⟩ := exists_append_trimEnd (trimStart cs)
  rw [trim] at h
  rw [h, List.nil_append] at e
  intro c hc
  rw [← List.takeWhile_append_dropWhile (p := isBlank) (l := cs)] at hc
  rcases List.mem_append.1 hc with hc | hc
  · exact List.all_eq_true.1 List.all_takeWhile c hc
  · exact hblanks c (e ▸ hc)

/-- A word keeps the blanks behind it in their place, and only those at the end of the text are trimmed. -/
theorem trim_blanks_word {blanks word : List Char} (hblanks : ∀ c ∈ blanks, isBlank c = true)
    (hne : word ≠ []) (hword : ∀ c ∈ word, isBlank c = false) (rest : List Char) :
    trim (blanks ++ (word ++ rest)) = word ++ trimEnd rest := by
  have hstart : trimStart (word ++ rest) = word ++ rest := by
    cases word with
    | nil => exact absurd rfl hne
    | cons a word => exact trimStart_cons_of_not_blank (hword a List.mem_cons_self) _
  rw [trim, trimStart_append_of_blank hblanks, hstart]
  exact trimEnd_append_word [] hne hword rest

theorem trim_word {word : List Char} (hne : word ≠ []) (hword : ∀ c ∈ word, isBlank c = false) :
    trim word = word := by
  have := @trim_blanks_word [] word nofun hne hword []
  rwa [List.nil_append, List.append_nil, trimEnd_nil, List.append_nil] at this

/-- What lies in front of a text that is not blank is not trimmed. -/
theorem trimEnd_append_of_ne_nil (as : List Char) {bs : List Char} (h : trimEnd bs ≠ []) :
    trimEnd (as ++ bs) = as ++ trimEnd bs := by
  have kept : bs.reverse.dropWhile isBlank ≠ [] := fun e => h (by rw [trimEnd, trimEndBy, e, List.reverse_nil])
  rw [trimEnd, trimEndBy, List.reverse_append, List.dropWhile_append, if_neg (by simpa using kept),
    List.reverse_append, List.reverse_reverse]
  rfl

/-- A trimmed text is trimmed at both ends. -/
theorem trim_eq_iff {cs : List Char} : trim cs = cs ↔ trimStart cs = cs ∧ trimEnd cs = cs := by
  refine ⟨fun h => ?_, fun ⟨hstart, hend⟩ => by rw [trim, hstart, hend]⟩
  obtain ⟨blanks, e, -⟩ := exists_append_trimEnd (trimStart cs)
  rw [← trim, h] at e
  have shorter : (trimStart cs).length ≤ cs.length := (List.dropWhile_sublist isBlank).length_le
  obtain rfl : blanks = [] := by
    rw [e, List.length_append] at shorter
    exact List.eq_nil_of_length_eq_zero (by omega)
  rw [List.append_nil] at e
  refine ⟨e, ?_⟩
  rwa [trim, e] at h

/-- A text that is trimmed at its start begins with something else than a blank. -/
theorem head_of_trimStart {cs : List Char} (h : trimStart cs = cs) : ∀ c ∈ cs.head?, isBlank c = false := by
  intro c hc
  have := List.head?_dropWhile_not isBlank cs
  rw [show cs.dropWhile isBlank = cs from h, hc] at this
  simpa using this

theorem trimStart_trimStart (cs : List Char) : trimStart (trimStart cs) = trimStart cs :=
  List.dropWhile_idempotent isBlank cs

theorem trim_trim (cs : List Char) : trim (trim cs) = trim cs := by
  refine trim_eq_iff.2 ⟨?_, List.rdropWhile_idempotent isBlank (trimStart cs)⟩
  have full := head_of_trimStart (trimStart_trimStart cs)
  rw [trim]
  cases h : trimStart cs with
  | nil => rfl
  | cons c rest =>
    have hc : isBlank c = false := full c (by rw [h]; rfl)
    rw [trimEnd_cons_of_not_blank hc, trimStart_cons_of_not_blank hc]

/-- A text that starts with a trimmed one is not trimmed at its start. -/
theorem trim_append_of_trimmed {as : List Char} (h : trim as = as) (hne : as ≠ []) (bs : List Char) :
    trim (as ++ bs) = trimEnd (as ++ bs) := by
  obtain ⟨c, rest, rfl⟩ := List.exists_cons_of_ne_nil hne
  have hc : isBlank c = false := head_of_trimStart (trim_eq_iff.1 h).1 c rfl
  rw [List.cons_append, trim_cons_of_not_blank hc, trimEnd_cons_of_not_blank hc]

/-- A text that ends with a trimmed one is not trimmed at its end. -/
theorem trimEnd_append_of_trimmed {bs : List Char} (h : trim bs = bs) (hne : bs ≠ []) (as : List Char) :
    trimEnd (as ++ bs) = as ++ bs := by
  have e : trimEnd bs = bs := (trim_eq_iff.1 h).2
  rw [trimEnd_append_of_ne_nil as (by rwa [e]), e]

/-- A trimmed string has trimmed characters. -/
theorem trim_toList_of_trimmed {s : String} (h : DiagramText.trim s = s) : trim s.toList = s.toList := by
  have e := congrArg String.toList h
  rwa [DiagramText.trim, String.toList_ofList] at e

/-- Trimming does not put back what was cut off. -/
theorem trim_trimEndBy_eq_iff {p : Char → Bool} {cs : List Char} (h : trim cs = cs) :
    trim (trimEndBy p cs) = cs ↔ trimEndBy p cs = cs := by
  refine ⟨fun e => ?_, fun e => by rw [e, h]⟩
  have kept : cs.Sublist (trimEndBy p cs) := by
    simpa only [e] using trim_sublist (trimEndBy p cs)
  exact (List.rdropWhile_prefix p cs).sublist.antisymm kept

/-- The blank characters. -/
def blanks : List Char :=
  [9, 10, 11, 12, 13, 0x20, 0x85, 0xA0, 0x1680, 0x2000, 0x2001, 0x2002, 0x2003, 0x2004, 0x2005, 0x2006,
    0x2007, 0x2008, 0x2009, 0x200A, 0x2028, 0x2029, 0x202F, 0x205F, 0x3000].map Char.ofNat

theorem mem_blanks {c : Char} (h : isBlank c = true) : c ∈ blanks := by
  rw [← Char.ofNat_toNat c]
  refine List.mem_map_of_mem ?_
  simp only [isBlank, Bool.or_eq_true, Bool.and_eq_true, decide_eq_true_eq, beq_iff_eq] at h
  simp only [List.mem_cons, List.not_mem_nil, or_false]
  omega

/-- A class of characters without the blank ones. -/
theorem not_isBlank_of_class {p : Char → Bool} (hp : blanks.all (!p ·) = true) {c : Char} (h : p c = true) :
    isBlank c = false := by
  refine Bool.eq_false_iff.2 fun blank => ?_
  have apart := List.all_eq_true.1 hp c (mem_blanks blank)
  rw [h] at apart
  cases apart

/-! ## Pieces -/

section

variable {p : Char → Bool}

theorem splitBy_cons_of_pos {c : Char} (hc : p c = true) (cs : List Char) : splitBy p (c :: cs) = [] :: splitBy p cs :=
  if_pos hc

/-- A character that separates nothing belongs to the first piece. -/
theorem splitBy_cons_of_neg {c : Char} (hc : p c = false) {cs piece : List Char} {pieces : List (List Char)}
    (e : splitBy p cs = piece :: pieces) : splitBy p (c :: cs) = (c :: piece) :: pieces := by
  rw [splitBy, hc, e]
  rfl

theorem splitBy_of_not_mem {cs : List Char} (h : ∀ c ∈ cs, p c = false) : splitBy p cs = [cs] := by
  induction cs with
  | nil => rfl
  | cons c cs ih =>
    exact splitBy_cons_of_neg (h c List.mem_cons_self) (ih fun a ha => h a (List.mem_cons_of_mem _ ha))

/-- The first piece ends at the first character that separates pieces. -/
theorem splitBy_append_cons {piece : List Char} (h : ∀ c ∈ piece, p c = false) {c : Char}
    (hc : p c = true) (cs : List Char) : splitBy p (piece ++ c :: cs) = piece :: splitBy p cs := by
  induction piece with
  | nil => exact splitBy_cons_of_pos hc cs
  | cons a piece ih =>
    exact splitBy_cons_of_neg (h a List.mem_cons_self) (ih fun b hb => h b (List.mem_cons_of_mem _ hb))

/-- The first piece. -/
theorem head?_splitBy (cs : List Char) : (splitBy p cs).head? = some (cs.takeWhile (!p ·)) := by
  induction cs with
  | nil => rfl
  | cons c cs ih =>
    rw [List.takeWhile_cons]
    cases hc : p c with
    | true =>
      rw [splitBy_cons_of_pos hc]
      rfl
    | false =>
      obtain ⟨pieces, e⟩ := List.head?_eq_some_iff.1 ih
      rw [splitBy_cons_of_neg hc e]
      rfl

theorem splitBy_ne_nil (cs : List Char) : splitBy p cs ≠ [] := by
  intro e
  have hhead := head?_splitBy (p := p) cs
  rw [e] at hhead
  cases hhead

end

theorem words_cons_of_blank {c : Char} (h : isBlank c = true) (rest : List Char) : words (c :: rest) = words rest := by
  rw [words, splitBy_cons_of_pos h]
  rfl

theorem words_append_of_blank {blanks : List Char} (h : ∀ c ∈ blanks, isBlank c = true) (rest : List Char) :
    words (blanks ++ rest) = words rest := by
  induction blanks with
  | nil => rfl
  | cons c blanks ih =>
    rw [List.forall_mem_cons] at h
    rw [List.cons_append, words_cons_of_blank h.1, ih h.2]

/-- A word ends where a blank or nothing follows. -/
theorem words_append {word : List Char} (hne : word ≠ []) (h : ∀ c ∈ word, isBlank c = false) {rest : List Char}
    (hrest : ∀ c ∈ rest.head?, isBlank c = true) : words (word ++ rest) = word :: words rest := by
  have kept (pieces : List (List Char)) :
      (word :: pieces).filter (!·.isEmpty) = word :: pieces.filter (!·.isEmpty) :=
    List.filter_cons_of_pos (by simpa using hne)
  cases rest with
  | nil =>
    rw [List.append_nil, words, splitBy_of_not_mem h, kept]
    rfl
  | cons c rest =>
    have blank : isBlank c = true := hrest c rfl
    rw [words_cons_of_blank blank, words, splitBy_append_cons h blank, kept, words]

/-! ## Lines -/

theorem lines_append_newline {line : List Char} (h : '\n' ∉ line) (rest : List Char) :
    lines (line ++ '\n' :: rest) = withoutReturn line :: lines rest := by
  have hfree : ∀ c ∈ line, (c == '\n') = false := fun c hc =>
    beq_eq_false_iff_ne.2 fun e => h (e ▸ hc)
  have hne := @splitBy_ne_nil (· == '\n') rest
  rw [lines, splitBy_append_cons hfree rfl, lines, List.dropLast_cons_of_ne_nil hne,
    List.getLast?_cons_of_ne_nil hne, List.map_cons]
  split <;> rfl

theorem lines_of_not_mem {line : List Char} (h : '\n' ∉ line) (hne : line ≠ []) :
    lines line = [line] := by
  have hfree : ∀ c ∈ line, (c == '\n') = false := fun c hc =>
    beq_eq_false_iff_ne.2 fun e => h (e ▸ hc)
  cases line with
  | nil => exact absurd rfl hne
  | cons c line =>
    rw [lines, splitBy_of_not_mem hfree]
    rfl

theorem withoutReturn_concat (line : List Char) (c : Char) :
    withoutReturn (line ++ [c]) = if c = '\r' then line else line ++ [c] := by
  rw [withoutReturn, List.reverse_append, List.reverse_singleton, List.singleton_append]
  split
  · rename_i front h
    obtain ⟨rfl, rfl⟩ := List.cons.inj h
    rw [if_pos rfl, List.reverse_reverse]
  · rename_i h
    rw [if_neg fun e => h _ (by rw [e])]

/-- A line end takes nothing from a text without a carriage return. -/
theorem withoutReturn_append {front : List Char} (h : '\r' ∉ front) (line : List Char) :
    ∃ more, withoutReturn (front ++ line) = front ++ more ∧ more <+: line := by
  rcases List.eq_nil_or_concat line with rfl | ⟨start, c, rfl⟩
  · refine ⟨[], ?_, List.prefix_refl []⟩
    rw [List.append_nil]
    rcases List.eq_nil_or_concat front with rfl | ⟨start, c, rfl⟩
    · rfl
    · rw [List.concat_eq_append] at h ⊢
      rw [withoutReturn_concat, if_neg]
      rintro rfl
      exact h (List.mem_append_right _ List.mem_cons_self)
  · rw [List.concat_eq_append, ← List.append_assoc, withoutReturn_concat]
    split
    · exact ⟨start, rfl, List.prefix_append ..⟩
    · exact ⟨start ++ [c], List.append_assoc .., List.prefix_refl _⟩

theorem withoutReturn_of_not_mem {line : List Char} (h : '\r' ∉ line) : withoutReturn line = line := by
  obtain ⟨more, e, hpre⟩ := withoutReturn_append h []
  rw [List.prefix_nil] at hpre
  rwa [hpre, List.append_nil] at e

/-- Either line end, with or without a carriage return, ends a line. -/
theorem lines_append_ending {line ending : List Char} (h : ∀ c ∈ line, c ≠ '\r' ∧ c ≠ '\n')
    (he : ending = ['\n'] ∨ ending = ['\r', '\n']) (rest : List Char) :
    lines (line ++ (ending ++ rest)) = line :: lines rest := by
  rcases he with rfl | rfl
  · have hlines := lines_append_newline (fun hm => (h _ hm).2 rfl) rest
    rwa [withoutReturn_of_not_mem fun hm => (h _ hm).1 rfl] at hlines
  · have hfree : '\n' ∉ line ++ ['\r'] := by
      rw [List.mem_append]
      exact fun hm => hm.elim (fun hm => (h _ hm).2 rfl) (by decide)
    have hlines := lines_append_newline hfree rest
    rwa [withoutReturn_concat, if_pos rfl, List.append_assoc] at hlines

/-- The first line of a text begins as the text does, as long as no line end comes. -/
theorem lines_append_start {front : List Char} (h : ∀ c ∈ front, c ≠ '\r' ∧ c ≠ '\n')
    (hne : front ≠ []) (rest : List Char) :
    ∃ more others, lines (front ++ rest) = (front ++ more) :: others ∧ more <+: rest := by
  by_cases hnl : '\n' ∈ rest
  · obtain ⟨line, after, rfl, hline⟩ := List.eq_append_cons_of_mem hnl
    have hfree : '\n' ∉ front ++ line := by
      rw [List.mem_append]
      exact fun hm => hm.elim (fun hm => (h _ hm).2 rfl) hline
    have hlines := lines_append_newline hfree after
    rw [List.append_assoc] at hlines
    obtain ⟨more, hmore, hpre⟩ := withoutReturn_append (fun hm => (h _ hm).1 rfl) line
    rw [hmore] at hlines
    exact ⟨more, _, hlines, hpre.trans (List.prefix_append ..)⟩
  · refine ⟨rest, [], lines_of_not_mem ?_ (by simp [hne]), List.prefix_refl rest⟩
    rw [List.mem_append]
    exact fun hm => hm.elim (fun hm => (h _ hm).2 rfl) hnl

end DiagramText.Chars
