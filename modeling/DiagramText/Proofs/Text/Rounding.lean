import DiagramText.Text.Numeral
import Mathlib.Algebra.Order.Field.Rat
import Mathlib.Tactic.FieldSimp
import Mathlib.Tactic.Linarith
import Mathlib.Tactic.NormNum
import Mathlib.Tactic.Positivity
import Mathlib.Tactic.Ring

/-!
# Rounding to floats

The bits of the positive floats, up to those of infinity, list the floats in their order, and what each of them stands
for is a multiple of the least positive one (`numberOf`). The float nearest to a number is the one whose number is at
the least distance, the one with even bits where two are equally near; infinity counts as the power of two that would
come next (`IsNearest`). At most one float is (`IsNearest.unique`), and scaling a whole number by a power of ten gives
it, for all whole numbers and exponents (`scale_eq`).
-/

namespace DiagramText.Numeral

/-- How many times the least positive float goes into the one with these bits: `mantissa * 2 ^ (exponent - 1)` times,
where the mantissa has a leading one, unless the exponent is zero. -/
def units (bits : Nat) : Nat :=
  if bits < 2 ^ 52 then bits else (2 ^ 52 + bits % 2 ^ 52) * 2 ^ (bits / 2 ^ 52 - 1)

/-- The number that the positive float with these bits stands for. -/
def numberOf (bits : Nat) : ℚ := units bits / 2 ^ leastPlaces

/-- Whether these are the bits of the positive float nearest to a number, even if another one is equally near. -/
structure IsNearest (v : ℚ) (bits : Nat) : Prop where
  le : bits ≤ infinityBits
  nearest : ∀ other ≤ infinityBits, |v - numberOf bits| ≤ |v - numberOf other|
  even : ∀ other ≤ infinityBits, |v - numberOf other| = |v - numberOf bits| → other = bits ∨ bits % 2 = 0

/-- The float nearest to a number that is not negative. -/
noncomputable def nearestFloat (v : ℚ) : Float := Float.ofBits (.ofNat (Classical.epsilon (IsNearest v)))

/-! ## Unpacking the bits -/

section

open Float.Model UnpackedFloat

variable (b : BitVec Format.binary64.numBits)

theorem toNat_unpackExponent : (unpackExponent b).toNat = b.toNat / 2 ^ 52 % 2 ^ 11 := by
  simp only [unpackExponent, BitVec.toNat_cast, BitVec.extractLsb_toNat, Nat.shiftRight_eq_div_pow]

theorem toNat_unpackMantissa : (unpackMantissa b).toNat = b.toNat % 2 ^ 52 := by
  simp only [unpackMantissa, BitVec.toNat_cast, BitVec.extractLsb_toNat, Nat.shiftRight_eq_div_pow]
  norm_num

theorem toNat_unpackSign : (unpackSign b).toNat = b.toNat / 2 ^ 63 % 2 := by
  unfold unpackSign
  simp only [BitVec.toNat_cast, BitVec.extractLsb_toNat, Nat.shiftRight_eq_div_pow]

/-- The number that an unpacked float stands for, if it is finite and not negative. -/
def ofUnpacked : UnpackedFloat → ℚ
  | .finite .positive m e _ => m * 2 ^ e
  | _ => 0

theorem ofUnpacked_positive (m : Nat) (e : Int) (h : 0 < m) : ofUnpacked (.finite .positive m e h) = m * 2 ^ e := rfl

variable {b}

/-- What stands for infinity apart, the bits are unpacked to their number. -/
theorem numberOf_eq_ofUnpacked (h : b.toNat < infinityBits) :
    numberOf b.toNat = ofUnpacked (unpack Format.binary64 b) := by
  have inRange : b.toNat < 2047 * 2 ^ 52 := h
  have sign : unpackSign b = BitVec.ofNat 1 0 := by
    rw [← BitVec.toNat_inj, toNat_unpackSign]
    simp
    omega
  have exponent := toNat_unpackExponent b
  have mantissa := toNat_unpackMantissa b
  rw [Nat.mod_eq_of_lt (by omega)] at exponent
  have notOnes : unpackExponent b ≠ -BitVec.ofNat Format.binary64.exponentBits 1 := by
    rw [← BitVec.toNat_inj.ne, exponent]
    simp
    omega
  unfold UnpackedFloat.unpack
  rw [if_neg notOnes, sign]
  have zero : unpackExponent b = BitVec.ofNat Format.binary64.exponentBits 0 ↔ b.toNat < 2 ^ 52 := by
    rw [← BitVec.toNat_inj, exponent]
    simp
  have positive : Sign.ofBitVec (BitVec.ofNat 1 0) = .positive := rfl
  rw [positive]
  obtain subnormal | normal := Nat.lt_or_ge b.toNat (2 ^ 52)
  · rw [numberOf, units, if_pos subnormal, if_pos (zero.2 subnormal)]
    rw [Nat.mod_eq_of_lt subnormal] at mantissa
    by_cases empty : unpackMantissa b = BitVec.ofNat Format.binary64.mantissaBitsWithoutImplicit 0
    · have none : b.toNat = 0 := mantissa.symm.trans (congrArg BitVec.toNat empty)
      rw [dif_pos empty, none, Nat.cast_zero, zero_div]
      rfl
    · rw [dif_neg empty, ofUnpacked_positive, mantissa, exponent, Nat.div_eq_of_lt subnormal, div_eq_mul_inv,
        ← zpow_natCast, ← zpow_neg]
      rfl
  · have subnormal : ¬ b.toNat < 2 ^ 52 := Nat.not_lt.2 normal
    have leading : (BitVec.ofNat 1 1 ++ unpackMantissa b).toNat = 2 ^ 52 + b.toNat % 2 ^ 52 := by
      rw [BitVec.toNat_append, ← mantissa, ← Nat.shiftLeft_add_eq_or_of_lt (unpackMantissa b).isLt]
      rfl
    rw [if_neg (mt zero.1 subnormal), ofUnpacked_positive, numberOf, units, if_neg subnormal, leading, exponent,
      Nat.cast_mul, mul_div_assoc, Nat.cast_pow, Nat.cast_ofNat, ← zpow_natCast, ← zpow_natCast,
      ← zpow_sub₀ two_ne_zero]
    congr 2
    have bias : Format.binary64.exponentBias = 1023 := rfl
    have width : Format.binary64.mantissaBitsWithoutImplicit = 52 := rfl
    rw [bias, width, leastPlaces]
    omega

end

/-! ## The order of floats -/

/-- The bits of a mantissa with some number of places dropped, or of one that is so short that none are. -/
theorem units_add {places mantissa : Nat} (short : mantissa ≤ 2 ^ 53) (long : places = 0 ∨ 2 ^ 52 ≤ mantissa) :
    units (places * 2 ^ 52 + mantissa) = mantissa * 2 ^ places := by
  obtain small | large := Nat.lt_or_ge mantissa (2 ^ 52)
  · obtain rfl : places = 0 := by omega
    rw [units, if_pos (by omega)]
    simp
  rw [units, if_neg (by omega)]
  obtain carry | fits := short.eq_or_lt
  · have exponent : (places * 2 ^ 52 + mantissa) / 2 ^ 52 - 1 = places + 1 := by omega
    have low : (places * 2 ^ 52 + mantissa) % 2 ^ 52 = 0 := by omega
    rw [exponent, low, carry, Nat.pow_succ]
    ring
  · have exponent : (places * 2 ^ 52 + mantissa) / 2 ^ 52 - 1 = places := by omega
    have low : 2 ^ 52 + (places * 2 ^ 52 + mantissa) % 2 ^ 52 = mantissa := by omega
    rw [exponent, low]

theorem exists_places (bits : Nat) : ∃ places mantissa, bits = places * 2 ^ 52 + mantissa ∧ mantissa < 2 ^ 53 ∧
    (places = 0 ∨ 2 ^ 52 ≤ mantissa) := by
  obtain small | large := Nat.lt_or_ge bits (2 ^ 52)
  · exact ⟨0, bits, by omega, by omega, .inl rfl⟩
  · exact ⟨bits / 2 ^ 52 - 1, 2 ^ 52 + bits % 2 ^ 52, by omega, by omega, .inr (by omega)⟩

theorem units_strictMono : StrictMono units := by
  refine strictMono_nat_of_lt_succ fun bits => ?_
  obtain ⟨places, mantissa, rfl, short, long⟩ := exists_places bits
  rw [Nat.add_assoc, units_add short.le long, units_add (by omega) (by omega)]
  exact Nat.mul_lt_mul_of_pos_right (Nat.lt_succ_self mantissa) (Nat.two_pow_pos places)

theorem numberOf_strictMono : StrictMono numberOf := fun _ _ h =>
  div_lt_div_of_pos_right (Nat.cast_lt.2 (units_strictMono h)) (pow_pos two_pos leastPlaces)

/-! ## The nearest float -/

section

variable {v : ℚ} {bits other : Nat}

/-- There is one nearest float: two that are equally near would both be even, and the one between them nearer. -/
theorem IsNearest.unique (h : IsNearest v bits) (h' : IsNearest v other) : bits = other := by
  wlog order : bits ≤ other generalizing bits other
  · exact (this h' h (Nat.le_of_not_le order)).symm
  by_contra apart
  have tie := le_antisymm (h.nearest other h'.le) (h'.nearest bits h.le)
  have even := (h.even other h'.le tie.symm).resolve_left (Ne.symm apart)
  have even' := (h'.even bits h.le tie).resolve_left apart
  have le := h'.le
  have first : numberOf bits < numberOf (bits + 1) := numberOf_strictMono (Nat.lt_succ_self bits)
  have second : numberOf (bits + 1) < numberOf other := numberOf_strictMono (by omega)
  have far := h.nearest (bits + 1) (by omega)
  have mid : v - numberOf bits = numberOf other - v := by
    obtain e | e := abs_eq_abs.1 tie
    all_goals linarith
  rw [abs_of_pos (by linarith : 0 < v - numberOf bits)] at far
  obtain e | e := abs_cases (v - numberOf (bits + 1))
  all_goals linarith

theorem nearestFloat_eq (h : IsNearest v bits) : nearestFloat v = Float.ofBits (.ofNat bits) := by
  rw [nearestFloat, (Classical.epsilon_spec ⟨bits, h⟩).unique h]

theorem isNearest_infinity (h : numberOf infinityBits ≤ v) : IsNearest v infinityBits := by
  have below {other : Nat} (ho : other ≤ infinityBits) : |v - numberOf other| = v - numberOf other :=
    abs_of_nonneg (sub_nonneg.2 ((numberOf_strictMono.monotone ho).trans h))
  refine ⟨le_rfl, fun other ho => ?_, fun other ho e => ?_⟩
  · rw [below le_rfl, below ho]
    exact sub_le_sub_left (numberOf_strictMono.monotone ho) v
  · rw [below le_rfl, below ho] at e
    exact .inl (numberOf_strictMono.injective (by linarith))

/-- The nearest float is one of the two next to the number. -/
theorem isNearest_of_between {k : Nat} (low : numberOf k ≤ v) (high : v < numberOf (k + 1))
    (le : k + 1 ≤ infinityBits) :
    IsNearest v (if v - numberOf k < numberOf (k + 1) - v ∨ v - numberOf k = numberOf (k + 1) - v ∧ k % 2 = 0 then k
      else k + 1) := by
  have below {other : Nat} (ho : other ≤ k) : |v - numberOf other| = v - numberOf other ∧ numberOf other ≤ numberOf k :=
    have mono := numberOf_strictMono.monotone ho
    ⟨abs_of_nonneg (sub_nonneg.2 (mono.trans low)), mono⟩
  have above {other : Nat} (ho : k + 1 ≤ other) :
      |v - numberOf other| = numberOf other - v ∧ numberOf (k + 1) ≤ numberOf other := by
    have mono := numberOf_strictMono.monotone ho
    exact ⟨abs_sub_comm v _ ▸ abs_of_nonneg (sub_nonneg.2 (high.le.trans mono)), mono⟩
  split
  case isTrue h =>
    have closer : v - numberOf k ≤ numberOf (k + 1) - v := h.elim le_of_lt fun h => h.1.le
    refine ⟨by omega, fun other ho => ?_, fun other ho e => ?_⟩
    · rw [(below le_rfl).1]
      obtain ho | ho := Nat.lt_or_ge k other
      · obtain ⟨e, mono⟩ := above ho
        linarith
      · obtain ⟨e, mono⟩ := below ho
        linarith
    · rw [(below le_rfl).1] at e
      obtain ho | ho := Nat.lt_or_ge k other
      · obtain ⟨e', mono⟩ := above ho
        refine .inr (h.resolve_left ?_).2
        linarith
      · exact .inl (numberOf_strictMono.injective (by linarith [(below ho).1]))
  case isFalse h =>
    obtain ⟨farther, tie⟩ := not_or.1 h
    rw [not_lt] at farther
    refine ⟨le, fun other ho => ?_, fun other ho e => ?_⟩
    · rw [(above le_rfl).1]
      obtain ho | ho := Nat.lt_or_ge k other
      · obtain ⟨e, mono⟩ := above ho
        linarith
      · obtain ⟨e, mono⟩ := below ho
        linarith
    · rw [(above le_rfl).1] at e
      obtain ho | ho := Nat.lt_or_ge k other
      · exact .inl (numberOf_strictMono.injective (by linarith [(above ho).1]))
      · obtain ⟨e', mono⟩ := below ho
        refine .inr ?_
        have odd : ¬ k % 2 = 0 := fun even => tie ⟨by linarith, even⟩
        omega

end

/-! ## Rounding a fraction -/

/-- The digits that are kept of a number when places are dropped until 53 digits are left. -/
theorem div_two_pow_places (n : Nat) :
    n / 2 ^ (Nat.log2 n - 52) < 2 ^ 53 ∧ (Nat.log2 n - 52 = 0 ∨ 2 ^ 52 ≤ n / 2 ^ (Nat.log2 n - 52)) := by
  constructor
  · rw [Nat.div_lt_iff_lt_mul (Nat.two_pow_pos _), ← Nat.pow_add]
    exact Nat.lt_log2_self.trans_le (Nat.pow_le_pow_right (by decide) (by omega))
  · obtain short | long := Nat.le_or_le (Nat.log2 n) 52
    · exact .inl (by omega)
    · have ne : n ≠ 0 := by
        rintro rfl
        simp at long
      right
      rw [Nat.le_div_iff_mul_le (Nat.two_pow_pos _), ← Nat.pow_add, show 52 + (Nat.log2 n - 52) = Nat.log2 n by omega]
      exact Nat.log2_self_le ne

/-- How far a fraction is from the two floats next to it, when their mantissas are the whole number of units in it and
the next number: as far as what is left of it in the division, and as what is missing to the divisor. -/
theorem distances {p q places bits : Nat} (hq : 0 < q)
    (below : units bits = p * 2 ^ leastPlaces / (q * 2 ^ places) * 2 ^ places)
    (above : units (bits + 1) = (p * 2 ^ leastPlaces / (q * 2 ^ places) + 1) * 2 ^ places) :
    (p : ℚ) / q - numberOf bits = (p * 2 ^ leastPlaces % (q * 2 ^ places) : Nat) / (q * 2 ^ leastPlaces) ∧
      numberOf (bits + 1) - (p : ℚ) / q =
        ((q * 2 ^ places : Nat) - (p * 2 ^ leastPlaces % (q * 2 ^ places) : Nat)) / (q * 2 ^ leastPlaces) := by
  have pos : (0 : ℚ) < q := Nat.cast_pos.2 hq
  have least : (0 : ℚ) < 2 ^ leastPlaces := pow_pos two_pos _
  have parts : (p : ℚ) * 2 ^ leastPlaces = q * 2 ^ places * (p * 2 ^ leastPlaces / (q * 2 ^ places) : Nat) +
      (p * 2 ^ leastPlaces % (q * 2 ^ places) : Nat) := by
    exact_mod_cast (Nat.div_add_mod (p * 2 ^ leastPlaces) (q * 2 ^ places)).symm
  rw [numberOf, numberOf, below, above]
  generalize p * 2 ^ leastPlaces / (q * 2 ^ places) = mantissa at *
  push_cast
  constructor
  all_goals field_simp
  all_goals linarith

theorem isNearest_nearestBits {q : Nat} (p : Nat) (hq : 0 < q) : IsNearest (p / q) (nearestBits p q) := by
  obtain ⟨short, long⟩ := div_two_pow_places (p * 2 ^ leastPlaces / q)
  rw [nearestBits]
  simp only [Nat.pow_eq]
  generalize Nat.log2 (p * 2 ^ leastPlaces / q) - 52 = places at *
  rw [Nat.div_div_eq_div_mul] at short long
  have high : units (places * 2 ^ 52 + p * 2 ^ leastPlaces / (q * 2 ^ places) + 1) =
      (p * 2 ^ leastPlaces / (q * 2 ^ places) + 1) * 2 ^ places := by
    rw [Nat.add_assoc]
    exact units_add (Nat.succ_le_of_lt short) (long.imp_right Nat.le_succ_of_le)
  obtain ⟨below, above⟩ := distances hq (units_add short.le long) high
  have rest := Nat.mod_lt (p * 2 ^ leastPlaces) (Nat.mul_pos hq (Nat.two_pow_pos places))
  have scale : (0 : ℚ) < q * 2 ^ leastPlaces := mul_pos (Nat.cast_pos.2 hq) (pow_pos two_pos leastPlaces)
  rw [roundToEven]
  generalize p * 2 ^ leastPlaces / (q * 2 ^ places) = mantissa at *
  generalize p * 2 ^ leastPlaces % (q * 2 ^ places) = left at *
  generalize q * 2 ^ places = divisor at *
  have low : numberOf (places * 2 ^ 52 + mantissa) ≤ p / q := 
    sub_nonneg.1 (below ▸ div_nonneg (Nat.cast_nonneg left) scale.le)
  have next : (p : ℚ) / q < numberOf (places * 2 ^ 52 + mantissa + 1) :=
    sub_pos.1 (above ▸ div_pos (sub_pos.2 (Nat.cast_lt.2 rest)) scale)
  have closer : (p : ℚ) / q - numberOf (places * 2 ^ 52 + mantissa) <
      numberOf (places * 2 ^ 52 + mantissa + 1) - p / q ↔ 2 * left < divisor := by
    rw [below, above, div_lt_div_iff_of_pos_right scale, lt_sub_iff_add_lt, ← two_mul]
    exact_mod_cast Iff.rfl
  have tie : (p : ℚ) / q - numberOf (places * 2 ^ 52 + mantissa) =
      numberOf (places * 2 ^ 52 + mantissa + 1) - p / q ↔ 2 * left = divisor := by
    rw [below, above, div_left_inj' scale.ne', eq_sub_iff_add_eq, ← two_mul]
    exact_mod_cast Iff.rfl
  have parity : (places * 2 ^ 52 + mantissa) % 2 = mantissa % 2 := by omega
  obtain inRange | beyond := Nat.lt_or_ge (places * 2 ^ 52 + mantissa) infinityBits
  · have nearest := isNearest_of_between low next inRange
    simp only [closer, tie, parity] at nearest
    split at nearest
    case isTrue h =>
      rw [if_pos h, Nat.min_eq_left inRange.le]
      exact nearest
    case isFalse h =>
      rw [if_neg h, ← Nat.add_assoc, Nat.min_eq_left inRange]
      exact nearest
  · rw [Nat.min_eq_right]
    · exact isNearest_infinity ((numberOf_strictMono.monotone beyond).trans low)
    · split
      all_goals omega

/-! ## Scaling by a power of ten -/

theorem isNearest_zero {v : ℚ} (nonneg : 0 ≤ v) (small : 2 * v * 2 ^ leastPlaces < 1) : IsNearest v 0 := by
  have zero : numberOf 0 = 0 := by simp [numberOf, units]
  have one : v + v < numberOf 1 := by
    rw [numberOf, units, if_pos (by decide), Nat.cast_one, lt_div_iff₀ (pow_pos two_pos leastPlaces), ← two_mul]
    exact small
  have nearest := isNearest_of_between (v := v) (k := 0) (zero.symm ▸ nonneg) (by linarith) (by decide)
  rw [if_pos (.inl (by rw [zero]; linarith))] at nearest
  exact nearest

theorem two_pow_le_ten_pow {places : Nat} {e : Int} (h : (places : Int) ≤ 3 * e) : (2 : ℚ) ^ places ≤ 10 ^ e := by
  lift e to Nat using by omega
  rw [zpow_natCast]
  calc (2 : ℚ) ^ places ≤ 2 ^ (3 * e) := pow_le_pow_right₀ (by norm_num) (by omega)
    _ = 8 ^ e := by
      rw [pow_mul]
      norm_num
    _ ≤ 10 ^ e := pow_le_pow_left₀ (by norm_num) (by norm_num) e

theorem isNearest_zero_of_negligible {m : Nat} {e : Int} (h : e + Nat.log2 m < -400) :
    IsNearest ((m : ℚ) * 10 ^ e) 0 := by
  refine isNearest_zero (mul_nonneg (Nat.cast_nonneg m) (zpow_nonneg (by norm_num) e)) ?_
  have mantissa : (m : ℚ) < 2 ^ (Nat.log2 m + 1) := by exact_mod_cast Nat.lt_log2_self
  have room : (2 : ℚ) ^ (1 + (Nat.log2 m + 1) + leastPlaces) ≤ 10 ^ (-e) :=
    two_pow_le_ten_pow (by rw [leastPlaces]; omega)
  rw [pow_add, pow_add, pow_one] at room
  calc 2 * ((m : ℚ) * 10 ^ e) * 2 ^ leastPlaces = 10 ^ e * (2 * m * 2 ^ leastPlaces) := by ring
    _ < 10 ^ e * (2 * 2 ^ (Nat.log2 m + 1) * 2 ^ leastPlaces) := by
      have pos : (0 : ℚ) < 10 ^ e := zpow_pos (by norm_num) e
      gcongr
    _ ≤ 10 ^ e * 10 ^ (-e) := mul_le_mul_of_nonneg_left room (zpow_nonneg (by norm_num) e)
    _ = 1 := by rw [← zpow_add₀ (by norm_num), add_neg_cancel, zpow_zero]

theorem numberOf_infinityBits : numberOf infinityBits = 2 ^ (52 + 972) := by
  have range : units infinityBits = 2 ^ 52 * 2 ^ (972 + leastPlaces) := by
    have exponent : infinityBits / 2 ^ 52 - 1 = 972 + leastPlaces := by decide
    rw [units, if_neg (by decide), exponent, show 2 ^ 52 + infinityBits % 2 ^ 52 = 2 ^ 52 by decide]
  rw [numberOf, range, Nat.cast_mul, Nat.cast_pow, Nat.cast_pow, Nat.cast_ofNat, pow_add, pow_add, ← mul_assoc,
    mul_div_cancel_right₀ _ (pow_pos two_pos leastPlaces).ne']

theorem isNearest_infinity_of_vast {m : Nat} {e : Int} (hm : m ≠ 0) (h : 400 < e) :
    IsNearest ((m : ℚ) * 10 ^ e) infinityBits := by
  refine isNearest_infinity ?_
  have one : (1 : ℚ) ≤ m := Nat.one_le_cast.2 (Nat.pos_of_ne_zero hm)
  calc numberOf infinityBits = 2 ^ (52 + 972) := numberOf_infinityBits
    _ ≤ 1 * 10 ^ e := by
      rw [one_mul]
      exact two_pow_le_ten_pow (by omega)
    _ ≤ m * 10 ^ e := mul_le_mul_of_nonneg_right one (zpow_nonneg (by norm_num) e)

/-- Scaling rounds to the nearest float. -/
theorem scale_eq (m : Nat) (e : Int) : scale m e = nearestFloat (m * 10 ^ e) := by
  rw [scale]
  split
  case isTrue h =>
    symm
    obtain rfl | negligible := h
    · exact nearestFloat_eq (isNearest_zero (by simp) (by simp))
    · exact nearestFloat_eq (isNearest_zero_of_negligible negligible)
  case isFalse h =>
    split
    case isTrue vast => exact (nearestFloat_eq (isNearest_infinity_of_vast (fun hm => h (.inl hm)) vast)).symm
    case isFalse =>
      have nearest := isNearest_nearestBits (m * 10 ^ e.toNat) (Nat.pow_pos (n := (-e).toNat) (by decide : 0 < 10))
      have quotient : ((m * 10 ^ e.toNat : Nat) : ℚ) / (10 ^ (-e).toNat : Nat) = m * 10 ^ e := by
        rw [Nat.cast_mul, Nat.cast_pow, Nat.cast_pow, Nat.cast_ofNat]
        obtain nonneg | neg := Int.le_total 0 e
        · lift e to Nat using nonneg
          simp
        · obtain ⟨n, rfl⟩ := Int.exists_eq_neg_ofNat neg
          simp [div_eq_mul_inv]
      rw [quotient] at nearest
      exact (nearestFloat_eq nearest).symm

end DiagramText.Numeral
