import DiagramText.Gantt.Duration
import DiagramText.Proofs.Text.Numeral

/-!
# Durations that are read

A duration is read from a numeral and the letters of a unit right behind it, and from nothing else
(`Duration.ofText?_eq_some`). The numeral is plain: it has no sign, digits in front of the point, and if there is a
point, digits behind it.
-/

namespace DiagramText

namespace Numeral

/-- A numeral without a sign that has digits in front of the point, and behind it if there is one. -/
structure Decimal.IsPlain (d : Decimal) : Prop where
  sign : d.sign = .none
  whole : d.whole ≠ []
  fraction : d.fraction ≠ some []

theorem Decimal.IsPlain.text_eq {d : Decimal} (h : d.IsPlain) : d.text = String.ofList d.body := by
  rw [text, h.sign]
  rfl

/-- The digits at the start of a text, with a point and the digits behind it if there are some, and what follows. -/
def plainSpan (cs : List Char) : List Char × List Char :=
  let (whole, rest) := cs.span Char.isDigit
  match rest with
  | '.' :: places =>
    match places.span Char.isDigit with
    | ([], _) => (whole, rest)
    | (digits, rest) => (whole ++ '.' :: digits, rest)
  | _ => (whole, rest)

theorem starts_body {d : Decimal} (plain : d.IsPlain) (rest : List Char) :
    ((d.body ++ rest).span Char.isDigit).1 ≠ [] := by
  obtain ⟨first, later, e⟩ := List.exists_cons_of_ne_nil plain.whole
  have digit : ∀ d : Fin 10, (Nat.digitChar d.val).isDigit = true := by decide
  rw [List.span_eq_takeWhile_dropWhile, Decimal.body, e]
  simp [digitChars, digit]

/-- A plain numeral is found at the start of a text where neither a digit nor a point follows. -/
theorem plainSpan_body {d : Decimal} (plain : d.IsPlain) {rest : List Char}
    (stop : ∀ c ∈ rest.head?, c.isDigit = false ∧ c ≠ '.') : plainSpan (d.body ++ rest) = (d.body, rest) := by
  have noDigit : ∀ c ∈ rest.head?, c.isDigit = false := fun c hc => (stop c hc).1
  obtain ⟨sign, whole, fraction, some_digit⟩ := d
  rw [plainSpan, Decimal.body]
  cases fraction with
  | none =>
    rw [Option.elim_none, List.append_nil, span_digitChars whole rest noDigit]
    dsimp only
    split
    · exact absurd rfl (stop '.' rfl).2
    · rfl
  | some places =>
    have front := span_digitChars whole ('.' :: (digitChars places ++ rest)) (by simp)
    rw [Option.elim_some, List.append_assoc, List.cons_append, front]
    simp only [span_digitChars places rest noDigit]
    split
    · rename_i none
      exact absurd (congrArg Prod.fst none) (by simpa [digitChars] using plain.fraction)
    · rename_i found
      obtain ⟨rfl, rfl⟩ := Prod.mk.inj found
      rfl

/-- What is found at the start of a text is a plain numeral, if the text starts with a digit. -/
theorem exists_plainSpan {cs : List Char} (h : (cs.span Char.isDigit).1 ≠ []) :
    ∃ (d : Decimal) (rest : List Char), d.IsPlain ∧ plainSpan cs = (d.body, rest) ∧ cs = d.body ++ rest := by
  obtain ⟨whole, rest, hspan⟩ : ∃ whole rest, cs.span Char.isDigit = (whole, rest) := ⟨_, _, rfl⟩
  obtain ⟨rfl, hwhole, -⟩ := Chars.span_eq_iff.1 hspan
  obtain ⟨digits, rfl⟩ := exists_digitChars hwhole
  have filled : digits ≠ [] := by
    rintro rfl
    exact h (congrArg Prod.fst hspan)
  have integral : ∃ d : Decimal, d.IsPlain ∧ digitChars digits = d.body :=
    ⟨⟨.none, digits, none, by simpa using filled⟩, ⟨rfl, filled, nofun⟩, (List.append_nil _).symm⟩
  obtain ⟨d, plain, body⟩ := integral
  rw [plainSpan, hspan, body]
  dsimp only
  split
  · rename_i places
    obtain ⟨more, behind, hmore⟩ : ∃ more behind, places.span Char.isDigit = (more, behind) := ⟨_, _, rfl⟩
    obtain ⟨rfl, hdigits, -⟩ := Chars.span_eq_iff.1 hmore
    rw [hmore]
    split
    · exact ⟨d, _, plain, rfl, rfl⟩
    · rename_i some_place found
      obtain ⟨rfl, rfl⟩ := Prod.mk.inj found
      obtain ⟨fraction, rfl⟩ := exists_digitChars hdigits
      have point : fraction ≠ [] := by
        rintro rfl
        exact some_place rfl
      refine ⟨⟨.none, digits, some fraction, by simp [filled]⟩, behind, ⟨rfl, filled, by simpa using point⟩, ?_, ?_⟩
      · rw [← body]
        rfl
      · rw [← body, Decimal.body, Option.elim_some, List.append_assoc]
        rfl
  · exact ⟨d, _, plain, rfl, rfl⟩

end Numeral

namespace Gantt

open Numeral

theorem TimeUnit.eq_suffix {cs : List Char} {u : TimeUnit} (h : ofSuffix? cs = some u) : cs = u.suffix.toList := by
  unfold ofSuffix? at h
  split at h
  case h_9 => cases h
  all_goals
    cases h
    rfl

/-- The letters of a unit are no digits, and no point comes before them. -/
theorem TimeUnit.head_suffix (u : TimeUnit) : ∀ c ∈ u.suffix.toList.head?, c.isDigit = false ∧ c ≠ '.' := by
  cases u <;> decide

theorem TimeUnit.word_suffix (u : TimeUnit) : ∀ c ∈ u.suffix.toList, isBlank c = false ∧ c ≠ ',' := by
  cases u <;> decide

namespace Duration

/-- The text of a numeral and a unit. -/
def written (numeral : Decimal) (u : TimeUnit) : String := numeral.text ++ u.suffix

theorem toList_written {numeral : Decimal} (plain : numeral.IsPlain) (u : TimeUnit) :
    (written numeral u).toList = numeral.body ++ u.suffix.toList := by
  rw [written, String.toList_append, plain.text_eq, String.toList_ofList]

theorem ofText?_eq (raw : String) :
    ofText? raw =
      if ((Chars.trim raw.toList).span Char.isDigit).1.isEmpty then none
      else do
        let (numeral, rest) := plainSpan (Chars.trim raw.toList)
        return ⟨← float? (String.ofList numeral), ← TimeUnit.ofSuffix? rest⟩ := rfl

/-- A duration is read from a plain numeral with a unit, with blanks around it. -/
theorem ofText?_eq_some {raw : String} {d : Duration} :
    ofText? raw = some d ↔ ∃ (numeral : Decimal) (u : TimeUnit), numeral.IsPlain ∧
      Chars.trim raw.toList = (written numeral u).toList ∧ ⟨numeral.value, u⟩ = d := by
  rw [ofText?_eq]
  generalize Chars.trim raw.toList = cs
  constructor
  · intro h
    split at h
    · cases h
    · rename_i filled
      obtain ⟨numeral, rest, plain, split, rfl⟩ := exists_plainSpan (by simpa using filled)
      rw [split] at h
      dsimp only at h
      rw [← plain.text_eq, float?_text] at h
      obtain ⟨value, hvalue, h⟩ := Option.bind_eq_some_iff.1 h
      obtain ⟨u, hu, same⟩ := Option.bind_eq_some_iff.1 h
      obtain rfl := Option.some.inj hvalue
      obtain rfl := TimeUnit.eq_suffix hu
      exact ⟨numeral, u, plain, (toList_written plain u).symm, Option.some.inj same⟩
  · rintro ⟨numeral, u, plain, rfl, rfl⟩
    rw [toList_written plain, plainSpan_body plain u.head_suffix, if_neg (by simpa using starts_body plain _)]
    dsimp only
    rw [← plain.text_eq, float?_text, TimeUnit.ofSuffix?_suffix]
    rfl

end Duration

end Gantt

end DiagramText
