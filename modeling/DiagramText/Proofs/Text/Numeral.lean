import DiagramText.Proofs.Text.Blank
import DiagramText.Proofs.Text.Rounding

/-!
# Decimal numerals

A decimal numeral is made of digits, perhaps with a point among them and a sign in front. It stands for the number that
the digits make up, with as many places behind the point as it has digits there (`Decimal.number`), and its value is
the float nearest to that number, with its sign (`Decimal.value`). That is how it is read (`float?_text`).
-/

namespace DiagramText.Numeral

/-- The sign in front of a numeral. -/
inductive Sign where
  | none | plus | minus
deriving DecidableEq

/-- The characters of the sign. -/
def Sign.chars : Sign → List Char
  | none => []
  | plus => ['+']
  | minus => ['-']

/-- The float with the sign. -/
def Sign.apply : Sign → Float → Float
  | minus, x => x.neg
  | _, x => x

/-- A decimal numeral: a sign, the digits in front of the point, and those behind it if there is a point. -/
structure Decimal where
  sign : Sign := .none
  whole : List (Fin 10)
  fraction : Option (List (Fin 10)) := none
  some_digit : whole ++ fraction.getD [] ≠ []

/-- Digits as characters. -/
def digitChars (digits : List (Fin 10)) : List Char := digits.map fun d : Fin 10 => Nat.digitChar d.val

/-- The number that digits make up. -/
def positional (digits : List (Fin 10)) : Nat := digits.foldl (fun (n : Nat) (d : Fin 10) => 10 * n + d.val) 0

namespace Decimal

/-- The digits with the point. -/
def body (d : Decimal) : List Char :=
  digitChars d.whole ++ d.fraction.elim [] fun places => '.' :: digitChars places

/-- The text of the numeral. -/
def text (d : Decimal) : String := String.ofList (d.sign.chars ++ d.body)

/-- The number that the numeral stands for, without its sign. -/
def number (d : Decimal) : ℚ := positional (d.whole ++ d.fraction.getD []) / 10 ^ (d.fraction.getD []).length

/-- The value of the numeral: the nearest float, with its sign. -/
noncomputable def value (d : Decimal) : Float := d.sign.apply (nearestFloat d.number)

end Decimal

theorem forall_mem_digitChars {p : Char → Prop} (digit : ∀ d : Fin 10, p (Nat.digitChar d.val))
    (digits : List (Fin 10)) : ∀ c ∈ digitChars digits, p c := by
  intro c hc
  obtain ⟨d, -, rfl⟩ := List.mem_map.1 hc
  exact digit d

/-- What holds of digits and the point holds of all characters behind the sign. -/
theorem Decimal.forall_mem_body {p : Char → Prop} (digit : ∀ d : Fin 10, p (Nat.digitChar d.val))
    (point : p '.') (d : Decimal) : ∀ c ∈ d.body, p c := by
  intro c hc
  obtain hc | hc := List.mem_append.1 hc
  · exact forall_mem_digitChars digit d.whole c hc
  · cases hf : d.fraction with
    | none =>
      rw [hf] at hc
      cases hc
    | some places =>
      rw [hf] at hc
      obtain rfl | hc := List.mem_cons.1 hc
      · exact point
      · exact forall_mem_digitChars digit places c hc

theorem Decimal.body_ne_nil (d : Decimal) : d.body ≠ [] := by
  obtain ⟨sign, whole, fraction, some_digit⟩ := d
  cases fraction with
  | none => simpa [body, digitChars] using some_digit
  | some places => simp [body]

/-- What holds of signs, digits and the point holds of all characters. -/
theorem Decimal.forall_mem_text {p : Char → Prop} (others : p '+' ∧ p '-' ∧ p '.')
    (digit : ∀ d : Fin 10, p (Nat.digitChar d.val)) (d : Decimal) : ∀ c ∈ d.text.toList, p c := by
  rw [text, String.toList_ofList]
  intro c hc
  obtain hc | hc := List.mem_append.1 hc
  · cases hs : d.sign <;> simp only [hs, Sign.chars, List.mem_singleton, List.not_mem_nil] at hc
    · exact hc ▸ others.1
    · exact hc ▸ others.2.1
  · exact forall_mem_body digit others.2.2 d c hc

theorem Decimal.text_ne_nil (d : Decimal) : d.text.toList ≠ [] := by
  simp [text, d.body_ne_nil]

theorem Decimal.not_isBlank (d : Decimal) : ∀ c ∈ d.text.toList, isBlank c = false :=
  forall_mem_text (by decide) (by decide) d

theorem Decimal.trim_text (d : Decimal) : trim d.text = d.text := by
  rw [trim, Chars.trim_word d.text_ne_nil d.not_isBlank, String.ofList_toList]

theorem ofDigits_digitChars (digits : List (Fin 10)) : ofDigits (digitChars digits) = positional digits := by
  have value : ∀ d : Fin 10, (Nat.digitChar d.val).toNat - '0'.toNat = d.val := by decide
  simp only [ofDigits, digitChars, positional, List.foldl_map, value]

theorem span_digitChars (digits : List (Fin 10)) (rest : List Char) (h : ∀ c ∈ rest.head?, c.isDigit = false) :
    (digitChars digits ++ rest).span Char.isDigit = (digitChars digits, rest) :=
  Chars.span_eq_iff.2 ⟨rfl, forall_mem_digitChars (p := fun c => c.isDigit = true) (by decide) digits, h⟩

/-- Every text of digits is one of these. -/
theorem exists_digitChars {cs : List Char} (h : ∀ c ∈ cs, c.isDigit = true) : ∃ digits, cs = digitChars digits := by
  have digit {c : Char} (hc : c.isDigit = true) : ∃ d : Fin 10, Nat.digitChar d.val = c := by
    have value : ∀ n : Fin 10, Nat.digitChar n.val = Char.ofNat (n.val + 48) := by decide
    simp only [Char.isDigit, Bool.and_eq_true, decide_eq_true_eq, ge_iff_le, UInt32.le_iff_toNat_le] at hc
    have low : 48 ≤ c.toNat := hc.1
    have high : c.toNat ≤ 57 := hc.2
    refine ⟨⟨c.toNat - 48, by omega⟩, ?_⟩
    rw [value, Nat.sub_add_cancel low, Char.ofNat_toNat]
  induction cs with
  | nil => exact ⟨[], rfl⟩
  | cons c cs ih =>
    obtain ⟨d, hd⟩ := digit (h c List.mem_cons_self)
    obtain ⟨digits, hdigits⟩ := ih fun c hc => h c (List.mem_cons_of_mem _ hc)
    exact ⟨d :: digits, by rw [hdigits, ← hd]; rfl⟩

/-- The nearest float is found by scaling the number that all digits make up. -/
theorem Decimal.nearestFloat_number (d : Decimal) :
    nearestFloat d.number = scale (positional (d.whole ++ d.fraction.getD [])) (-(d.fraction.getD []).length) := by
  rw [scale_eq, Decimal.number, zpow_neg, zpow_natCast, div_eq_mul_inv]

theorem magnitude?_body (d : Decimal) : magnitude? d.body = some (nearestFloat d.number) := by
  rw [d.nearestFloat_number]
  have noLetter := d.forall_mem_body (p := fun c => c.toLower ≠ 'i' ∧ c.toLower ≠ 'n') (by decide) (by decide)
  have noWord (word : List Char) (h : 'i' ∈ word ∨ 'n' ∈ word) : (d.body.map Char.toLower == word) = false := by
    rw [beq_eq_false_iff_ne]
    rintro rfl
    obtain h | h := h
    all_goals obtain ⟨c, hc, e⟩ := List.mem_map.1 h
    · exact (noLetter c hc).1 e
    · exact (noLetter c hc).2 e
  rw [magnitude?]
  simp only [noWord "inf".toList (by decide), noWord "infinity".toList (by decide),
    noWord "nan".toList (by decide), Bool.or_self, Bool.false_eq_true, ↓reduceIte]
  obtain ⟨sign, whole, fraction, some_digit⟩ := d
  cases fraction with
  | none =>
    have front := span_digitChars whole [] (by simp)
    have filled : digitChars whole ≠ [] := by simpa [digitChars] using some_digit
    rw [List.append_nil] at front
    simp [Decimal.body, front, filled, ← ofDigits_digitChars, -List.span_eq_takeWhile_dropWhile]
  | some places =>
    have front := span_digitChars whole ('.' :: digitChars places) (by simp)
    have back := span_digitChars places [] (by simp)
    have filled : digitChars whole = [] → digitChars places ≠ [] := by simpa [digitChars] using some_digit
    have joined : digitChars (whole ++ places) = digitChars whole ++ digitChars places := List.map_append
    have length : (digitChars places).length = places.length := List.length_map _
    rw [List.append_nil] at back
    simp only [Decimal.body, Option.elim_some, front, back]
    simpa [← ofDigits_digitChars, joined, length] using filled

/-- A decimal numeral is read as its value. -/
theorem float?_text (d : Decimal) : float? d.text = some d.value := by
  have noSign := d.forall_mem_body (p := fun c => c ≠ '-' ∧ c ≠ '+') (by decide) (by decide)
  have read := magnitude?_body d
  rw [float?, Decimal.text, String.toList_ofList, Decimal.value]
  cases d.sign with
  | none =>
    obtain ⟨c, cs, hbody⟩ := List.exists_cons_of_ne_nil d.body_ne_nil
    have plain := noSign c (by simp [hbody])
    rw [Sign.chars, List.nil_append]
    rw [hbody] at read ⊢
    split
    · simp_all
    · simp_all
    · exact read
  | plus => exact read
  | minus =>
    show (magnitude? d.body).map Float.neg = _
    rw [read]
    rfl

end DiagramText.Numeral
