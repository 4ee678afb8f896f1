import RecordLayer.Double.Rounding
import Mathlib.Algebra.Order.Field.Power
import Mathlib.Data.Rat.Cast.Order
import Mathlib.Tactic.FieldSimp
import Mathlib.Tactic.Linarith
import Mathlib.Tactic.Positivity
import Mathlib.Tactic.Ring

/-!
# Rounding to the nearest double

A finite magnitude is a significand times a power of two. **A fraction that lies closer to such a
magnitude than to its neighbours is rounded to it,** and one half way if the significand is even.
The interval of these fractions is the same that shortest decimals are searched in, so what is found
there is rounded back.

Below a power of two the spacing halves, so at the least normal significand the interval
reaches down a quarter of a unit only, and the fractions in that quarter are rounded with
the smaller exponent.
-/

namespace RecordLayer

/-- A fraction of natural numbers as a rational number. -/
def fraction (r : Nat × Nat) : ℚ := r.1 / r.2

/-- A number within half of `num / den` is what it is rounded to; at just a half, an even one. -/
theorem roundHalfEven_eq {num den m : Nat} (hden : 0 < den) (hlow : 2 * m * den ≤ 2 * num + den)
    (hhigh : 2 * num ≤ 2 * m * den + den)
    (hodd : m % 2 = 1 → 2 * m * den < 2 * num + den ∧ 2 * num < 2 * m * den + den) :
    roundHalfEven num den = m := by
  have hsplit : den * (num / den) + num % den = num := Nat.div_add_mod num den
  have hrest : num % den < den := Nat.mod_lt num hden
  -- only the floor and the number above it are so near
  have hfloor : num / den = m ∨ num / den + 1 = m := by
    generalize num / den = floor at *
    generalize num % den = rest at *
    have hle : floor ≤ m := by
      by_contra hlt
      have := Nat.mul_le_mul_left den (show m + 1 ≤ floor by omega)
      nlinarith
    have hge : m ≤ floor + 1 := by
      by_contra hlt
      have := Nat.mul_le_mul_left den (show floor + 2 ≤ m by omega)
      nlinarith
    omega
  rw [roundHalfEven]
  rcases hfloor with rfl | rfl
  · have hmul : 2 * (num / den) * den = 2 * (den * (num / den)) := by ring
    split_ifs <;> omega
  · have hmul : 2 * (num / den + 1) * den = 2 * (den * (num / den)) + 2 * den := by ring
    split_ifs <;> omega

namespace Double

/-! ## Scaling and logarithms -/

/-- A power of a base in the numerator or in the denominator, as its exponent has it. -/
theorem fraction_scaled (base num den : Nat) (e : Int) :
    fraction (num * Nat.pow base e.toNat, den * Nat.pow base (-e).toNat) =
      fraction (num, den) * (base : ℚ) ^ e := by
  have hsplit : (base : ℚ) ^ e = base ^ e.toNat / base ^ (-e).toNat := by
    rcases Int.le_total 0 e with he | he
    · rw [show (-e).toNat = 0 by omega, pow_zero, div_one, ← zpow_natCast, Int.toNat_of_nonneg he]
    · rw [show e.toNat = 0 by omega, pow_zero, one_div, ← zpow_natCast,
        Int.toNat_of_nonneg (by omega), zpow_neg, inv_inv]
  simp only [fraction, hsplit, Nat.cast_mul, Nat.pow_eq, Nat.cast_pow]
  exact (div_mul_div_comm _ _ _ _).symm

theorem fraction_scaleBinary (num den : Nat) (q : Int) :
    fraction (scaleBinary num den q) = fraction (num, den) * (2 : ℚ) ^ q :=
  fraction_scaled 2 num den q

theorem scaleBinary_pos {num den : Nat} (h : 0 < den) (q : Int) : 0 < (scaleBinary num den q).2 :=
  Nat.mul_pos h (Nat.pow_pos (by decide))

theorem two_zpow_pos (q : Int) : (0 : ℚ) < 2 ^ q := zpow_pos (by norm_num) q

theorem mul_zpow_neg_mul (x : ℚ) (q : Int) : x * 2 ^ (-q) * 2 ^ q = x := by
  rw [mul_assoc, ← zpow_add₀ (by norm_num), neg_add_cancel, zpow_zero, mul_one]

/-- A positive number lies between the powers of two that its logarithm names. -/
theorem zpow_log2_le {n : Nat} (hn : 0 < n) :
    (2 : ℚ) ^ (n.log2 : Int) ≤ n ∧ (n : ℚ) < 2 ^ (n.log2 + 1 : Int) := by
  constructor
  · rw [zpow_natCast]
    exact_mod_cast Nat.log2_self_le (by omega)
  · rw [← Nat.cast_one, ← Nat.cast_add, zpow_natCast]
    exact_mod_cast Nat.lt_log2_self

/-- The difference of the logarithms of numerator and denominator is right or one too large. -/
theorem log2_sub_log2_spec {num den : Nat} (hnum : 0 < num) (hden : 0 < den) :
    (2 : ℚ) ^ ((num.log2 : Int) - den.log2 - 1) ≤ fraction (num, den) ∧
      fraction (num, den) < 2 ^ ((num.log2 : Int) - den.log2 + 1) := by
  have hden' : (0 : ℚ) < den := by exact_mod_cast hden
  obtain ⟨hnumlow, hnumhigh⟩ := zpow_log2_le hnum
  obtain ⟨hdenlow, hdenhigh⟩ := zpow_log2_le hden
  constructor
  · rw [fraction, le_div_iff₀ hden']
    calc (2 : ℚ) ^ ((num.log2 : Int) - den.log2 - 1) * den
        ≤ 2 ^ ((num.log2 : Int) - den.log2 - 1) * 2 ^ (den.log2 + 1 : Int) :=
          mul_le_mul_of_nonneg_left hdenhigh.le (two_zpow_pos _).le
      _ = 2 ^ (num.log2 : Int) := by
          rw [← zpow_add₀ (by norm_num : (2 : ℚ) ≠ 0)]
          ring_nf
      _ ≤ num := hnumlow
  · rw [fraction, div_lt_iff₀ hden']
    calc (num : ℚ) < 2 ^ (num.log2 + 1 : Int) := hnumhigh
      _ = 2 ^ ((num.log2 : Int) - den.log2 + 1) * 2 ^ (den.log2 : Int) := by
          rw [← zpow_add₀ (by norm_num : (2 : ℚ) ≠ 0)]
          ring_nf
      _ ≤ 2 ^ ((num.log2 : Int) - den.log2 + 1) * den :=
          mul_le_mul_of_nonneg_left hdenlow (two_zpow_pos _).le

/-- A fraction is compared with a power of two by scaling it. -/
theorem scaleBinary_le_iff {num den : Nat} (hden : 0 < den) (e : Int) :
    (scaleBinary num den (-e)).2 ≤ (scaleBinary num den (-e)).1 ↔
      (2 : ℚ) ^ e ≤ fraction (num, den) := by
  have hscaled : (0 : ℚ) < (scaleBinary num den (-e)).2 := by
    exact_mod_cast scaleBinary_pos hden (-e)
  calc (scaleBinary num den (-e)).2 ≤ (scaleBinary num den (-e)).1
      ↔ 1 ≤ fraction (scaleBinary num den (-e)) := by
        rw [fraction, one_le_div hscaled, Nat.cast_le]
    _ ↔ (2 : ℚ) ^ e ≤ fraction (num, den) := by
        rw [fraction_scaleBinary, zpow_neg, ← div_eq_mul_inv, one_le_div (two_zpow_pos e)]

/-- The logarithm of a positive fraction, rounded down. -/
theorem floorLog2_spec {num den : Nat} (hnum : 0 < num) (hden : 0 < den) :
    (2 : ℚ) ^ floorLog2 num den ≤ fraction (num, den) ∧
      fraction (num, den) < (2 : ℚ) ^ (floorLog2 num den + 1) := by
  have hguess := log2_sub_log2_spec hnum hden
  rw [floorLog2]
  generalize (num.log2 : Int) - den.log2 = guess at hguess
  simp only
  split_ifs with hle
  · exact ⟨(scaleBinary_le_iff hden guess).1 hle, hguess.2⟩
  · rw [scaleBinary_le_iff hden, not_le] at hle
    exact ⟨hguess.1, by rwa [Int.sub_add_cancel]⟩

theorem le_floorLog2 {num den : Nat} (hnum : 0 < num) (hden : 0 < den) {e : Int}
    (h : (2 : ℚ) ^ e ≤ fraction (num, den)) : e ≤ floorLog2 num den := by
  have := (zpow_lt_zpow_iff_right₀ (by norm_num : (1 : ℚ) < 2)).1
    (h.trans_lt (floorLog2_spec hnum hden).2)
  omega

theorem floorLog2_lt {num den : Nat} (hnum : 0 < num) (hden : 0 < den) {e : Int}
    (h : fraction (num, den) < (2 : ℚ) ^ e) : floorLog2 num den < e :=
  (zpow_lt_zpow_iff_right₀ (by norm_num : (1 : ℚ) < 2)).1 ((floorLog2_spec hnum hden).1.trans_lt h)

/-- The same for a fraction that was scaled. -/
theorem add_le_floorLog2 {num den : Nat} (hnum : 0 < num) (hden : 0 < den) {k q : Int}
    (h : (2 : ℚ) ^ k ≤ fraction (num, den) * 2 ^ (-q)) : k + q ≤ floorLog2 num den := by
  refine le_floorLog2 hnum hden ?_
  rw [zpow_add₀ (by norm_num), ← mul_zpow_neg_mul (fraction (num, den)) q]
  exact mul_le_mul_of_nonneg_right h (two_zpow_pos q).le

theorem floorLog2_lt_add {num den : Nat} (hnum : 0 < num) (hden : 0 < den) {k q : Int}
    (h : fraction (num, den) * 2 ^ (-q) < (2 : ℚ) ^ k) : floorLog2 num den < k + q := by
  refine floorLog2_lt hnum hden ?_
  rw [zpow_add₀ (by norm_num), ← mul_zpow_neg_mul (fraction (num, den)) q]
  exact mul_lt_mul_of_pos_right h (two_zpow_pos q)

/-! ## Significands and exponents -/

/-- A significand and an exponent that a finite magnitude can have. -/
structure Legal (m : Nat) (q : Int) : Prop where
  exponent : -1074 ≤ q
  significand : m < 2 * hiddenBit
  normal : -1074 < q → hiddenBit ≤ m

/-- The magnitude with a significand and an exponent. -/
def encode (m : Nat) (q : Int) : Nat := (q + 1074).toNat * hiddenBit + m

theorem exponent_eq_exponentField (d : Double) :
    d.exponentField = 0 ∧ d.exponent = -1074 ∧ d.significand = d.magnitude ∧
        d.magnitude < hiddenBit ∨
      0 < d.exponentField ∧ d.exponent = d.exponentField - 1075 ∧
        d.significand = d.magnitude % hiddenBit + hiddenBit := by
  rw [exponent, significand]
  rcases Nat.eq_zero_or_pos d.exponentField with h | h
  · refine .inl ⟨h, by rw [h]; rfl, if_pos h, ?_⟩
    exact Nat.lt_of_div_eq_zero (by decide) h
  · exact .inr ⟨h, by rw [Nat.max_eq_right h], if_neg (by omega)⟩

theorem legal (d : Double) : Legal d.significand d.exponent := by
  have hmod := Nat.mod_lt d.magnitude (show 0 < hiddenBit by decide)
  rcases d.exponent_eq_exponentField with ⟨-, hq, hm, hlow⟩ | ⟨hfield, hq, hm⟩
  · exact ⟨by omega, by omega, by omega⟩
  · exact ⟨by omega, by omega, by omega⟩

theorem magnitude_eq_encode (d : Double) : d.magnitude = encode d.significand d.exponent := by
  have hsplit : hiddenBit * d.exponentField + d.magnitude % hiddenBit = d.magnitude :=
    Nat.div_add_mod d.magnitude hiddenBit
  rw [encode]
  rcases d.exponent_eq_exponentField with ⟨hfield, hq, hm, -⟩ | ⟨hfield, hq, hm⟩
  · rw [hq, hm]
    simp
  · obtain ⟨k, hk⟩ := Nat.exists_eq_succ_of_ne_zero (Nat.ne_of_gt hfield)
    rw [hq, hm, hk, show ((k.succ : Int) - 1075 + 1074).toNat = k by omega]
    rw [hk, Nat.mul_succ, Nat.mul_comm] at hsplit
    omega

/-- The fields of a magnitude are the ones that it was put together from. -/
theorem fields_of_encode {d : Double} {m : Nat} {q : Int} (h : Legal m q)
    (hd : d.magnitude = encode m q) : d.significand = m ∧ d.exponent = q := by
  obtain ⟨hexponent, hsignificand, hnormal⟩ := h
  have hfields := d.exponent_eq_exponentField
  simp only [encode, hiddenBit, exponentField] at *
  omega

/-! ## The interval of a magnitude -/

/-- The fraction is within half a unit of `m * 2 ^ q`, and within a quarter below it where the
spacing halves; the ends of the interval belong to it if `m` is even. -/
structure Near (m : Nat) (q : Int) (x : ℚ) : Prop where
  low : 4 * (m : ℚ) - (if m = hiddenBit ∧ -1074 < q then 1 else 2) ≤ 4 * (x * 2 ^ (-q))
  high : 4 * (x * 2 ^ (-q)) ≤ 4 * m + 2
  odd : m % 2 = 1 → 4 * (m : ℚ) - 2 < 4 * (x * 2 ^ (-q)) ∧ 4 * (x * 2 ^ (-q)) < 4 * m + 2

theorem roundHalfEven_of_fraction {r : Nat × Nat} {m : Nat} (hden : 0 < r.2)
    (hlow : 4 * (m : ℚ) - 2 ≤ 4 * fraction r) (hhigh : 4 * fraction r ≤ 4 * m + 2)
    (hodd : m % 2 = 1 → 4 * (m : ℚ) - 2 < 4 * fraction r ∧ 4 * fraction r < 4 * m + 2) :
    roundHalfEven r.1 r.2 = m := by
  have hden' : (0 : ℚ) < r.2 := by exact_mod_cast hden
  have hnum : (r.1 : ℚ) = fraction r * r.2 := by rw [fraction, div_mul_cancel₀ _ hden'.ne']
  refine roundHalfEven_eq hden ?_ ?_ fun h => ⟨?_, ?_⟩
  · have : (2 * m * r.2 : ℚ) ≤ 2 * r.1 + r.2 := by rw [hnum]; nlinarith
    exact_mod_cast this
  · have : (2 * r.1 : ℚ) ≤ 2 * m * r.2 + r.2 := by rw [hnum]; nlinarith
    exact_mod_cast this
  · have : (2 * m * r.2 : ℚ) < 2 * r.1 + r.2 := by rw [hnum]; nlinarith [(hodd h).1]
    exact_mod_cast this
  · have : (2 * r.1 : ℚ) < 2 * m * r.2 + r.2 := by rw [hnum]; nlinarith [(hodd h).2]
    exact_mod_cast this

variable {m : Nat} {q : Int}

theorem Near.lt {x : ℚ} (hlegal : Legal m q) (h : Near m q x) : x * 2 ^ (-q) < 2 * hiddenBit := by
  have hlast : m % 2 = 1 ∧ m + 1 = 2 * hiddenBit ∨ m + 2 ≤ 2 * hiddenBit := by
    have := hlegal.significand
    simp only [hiddenBit] at *
    omega
  rcases hlast with ⟨hodd, hlast⟩ | hlast
  · have := (h.odd hodd).2
    have hlast : (m : ℚ) + 1 = 2 * hiddenBit := by exact_mod_cast hlast
    linarith
  · have := h.high
    have hlast : (m : ℚ) + 2 ≤ 2 * hiddenBit := by exact_mod_cast hlast
    linarith

/-- What is rounded, once the exponent is known. -/
theorem magnitudeOfRatio_of_exponent {num den : Nat} (hnum : 0 < num) (hden : 0 < den)
    (hq : max (-1074) (floorLog2 num den - 52) = q)
    (hround : roundHalfEven (scaleBinary num den (-q)).1 (scaleBinary num den (-q)).2 = m) :
    magnitudeOfRatio num den = min infinityBits (encode m q) := by
  rw [magnitudeOfRatio, if_neg (by omega), hq]
  simp only [hround, encode]

theorem hiddenBit_eq : (hiddenBit : ℚ) = 2 ^ (52 : Int) := by norm_num [hiddenBit]

/-- Only at the least normal significand does the interval reach below a power of two. -/
theorem Near.eq_hiddenBit {x : ℚ} (hlegal : Legal m q) (h : Near m q x) (hq : -1074 < q)
    (hbelow : x * 2 ^ (-q) < hiddenBit) : m = hiddenBit := by
  have hnormal := hlegal.normal hq
  by_contra hne
  have hlow := h.low
  rw [if_neg fun h => hne h.1] at hlow
  have : (hiddenBit : ℚ) + 1 ≤ m := by exact_mod_cast (by omega : hiddenBit + 1 ≤ m)
  linarith

/-- A fraction of the interval that has the exponent of the magnitude is rounded to it. -/
theorem magnitudeOfRatio_of_above {num den : Nat} (hlegal : Legal m q) (hnum : 0 < num)
    (hden : 0 < den) (hnear : Near m q (fraction (num, den)))
    (habove : q = -1074 ∨ (hiddenBit : ℚ) ≤ fraction (num, den) * 2 ^ (-q)) :
    magnitudeOfRatio num den = min infinityBits (encode m q) := by
  have hexponent := hlegal.exponent
  have hbelow : floorLog2 num den < 53 + q := by
    refine floorLog2_lt_add hnum hden ((hnear.lt hlegal).trans_eq ?_)
    norm_num [hiddenBit]
  have hle : q = -1074 ∨ 52 + q ≤ floorLog2 num den :=
    habove.imp_right fun hle => add_le_floorLog2 hnum hden (hiddenBit_eq ▸ hle)
  obtain ⟨hlow, hhigh, hodd⟩ := hnear
  refine magnitudeOfRatio_of_exponent hnum hden (by omega) ?_
  refine roundHalfEven_of_fraction (scaleBinary_pos hden _) ?_ ?_ ?_ <;> rw [fraction_scaleBinary]
  · split_ifs at hlow <;> linarith
  · exact hhigh
  · exact hodd

/-- Below a power of two the spacing is half as wide, so the fraction is rounded with the smaller
exponent, up to the power of two. -/
theorem magnitudeOfRatio_of_below {num den : Nat} (hlegal : Legal m q) (hnum : 0 < num)
    (hden : 0 < den) (hnear : Near m q (fraction (num, den))) (hq : -1074 < q)
    (hbelow : fraction (num, den) * 2 ^ (-q) < hiddenBit) :
    magnitudeOfRatio num den = min infinityBits (encode m q) := by
  obtain rfl := hnear.eq_hiddenBit hlegal hq hbelow
  have hlow := hnear.low
  rw [if_pos ⟨rfl, hq⟩] at hlow
  have hunder : floorLog2 num den < 52 + q :=
    floorLog2_lt_add hnum hden (hbelow.trans_eq hiddenBit_eq)
  have hover : 51 + q ≤ floorLog2 num den := by
    refine add_le_floorLog2 hnum hden ?_
    have : (2 : ℚ) ^ (51 : Int) ≤ hiddenBit - 1 := by norm_num [hiddenBit]
    linarith
  -- at the exponent below, the ratio rounds to twice the hidden bit, which is the same double
  have hdouble : fraction (scaleBinary num den (-(q - 1))) =
      2 * (fraction (num, den) * 2 ^ (-q)) := by
    rw [fraction_scaleBinary, neg_sub, sub_eq_add_neg, zpow_add₀ (by norm_num), zpow_one]
    ring
  have hround : roundHalfEven (scaleBinary num den (-(q - 1))).1
      (scaleBinary num den (-(q - 1))).2 = 2 * hiddenBit := by
    refine roundHalfEven_of_fraction (scaleBinary_pos hden _) ?_ ?_
      (fun h => absurd h (by decide)) <;>
      rw [hdouble] <;> push_cast <;> linarith
  have hencode : encode (2 * hiddenBit) (q - 1) = encode hiddenBit q := by
    rw [encode, encode, show (q + 1074).toNat = (q - 1 + 1074).toNat + 1 by omega]
    ring
  rw [magnitudeOfRatio_of_exponent hnum hden (by omega) hround, hencode]

/-- **A fraction in the interval of a magnitude is rounded to it.** -/
theorem magnitudeOfRatio_eq {num den : Nat} (hlegal : Legal m q) (hnum : 0 < num) (hden : 0 < den)
    (hnear : Near m q (fraction (num, den))) (hfinite : encode m q ≤ infinityBits) :
    magnitudeOfRatio num den = encode m q := by
  suffices hrounded : magnitudeOfRatio num den = min infinityBits (encode m q) by
    rw [hrounded, Nat.min_eq_right hfinite]
  by_cases habove : q = -1074 ∨ (hiddenBit : ℚ) ≤ fraction (num, den) * 2 ^ (-q)
  · exact magnitudeOfRatio_of_above hlegal hnum hden hnear habove
  · rw [not_or, not_le] at habove
    have hexponent := hlegal.exponent
    exact magnitudeOfRatio_of_below hlegal hnum hden hnear (by omega) habove.2

/-! ## Doubles from fractions -/

/-- The number that the magnitude of a finite double stands for. -/
def value (d : Double) : ℚ := d.significand * 2 ^ d.exponent

theorem magnitude_ofMagnitude (negative : Bool) {magnitude : Nat} (h : magnitude < signBit) :
    (ofMagnitude negative magnitude).magnitude = magnitude := by
  simp only [ofMagnitude, Double.magnitude, Nat.toUInt64_eq, UInt64.toNat_ofNat', signBit] at *
  split <;> omega

theorem magnitude_lt (d : Double) : d.magnitude < signBit := Nat.mod_lt _ (by decide)

theorem magnitude_signed (negative : Bool) (d : Double) :
    (ofMagnitude negative d.magnitude).magnitude = d.magnitude :=
  magnitude_ofMagnitude negative d.magnitude_lt

theorem isNegative_ofMagnitude (negative : Bool) {magnitude : Nat} (h : magnitude < signBit) :
    (ofMagnitude negative magnitude).isNegative = negative := by
  simp only [ofMagnitude, isNegative, Nat.toUInt64_eq, UInt64.toNat_ofNat', signBit] at *
  cases negative <;> simp <;> omega

/-- A double is its sign and its magnitude. -/
theorem ofMagnitude_self (d : Double) : ofMagnitude d.isNegative d.magnitude = d := by
  have hbits : (ofMagnitude d.isNegative d.magnitude).bits = d.bits := by
    have hlt := d.bits.toNat_lt
    rw [← UInt64.toNat_inj, ofMagnitude, Nat.toUInt64_eq, UInt64.toNat_ofNat']
    cases hsign : d.isNegative with
    | true =>
      have := of_decide_eq_true hsign
      simp only [Double.magnitude, signBit, if_true] at *
      omega
    | false =>
      have := of_decide_eq_false hsign
      simp only [Double.magnitude, signBit, Bool.false_eq_true, if_false] at *
      omega
  exact congrArg Double.mk hbits

theorem fraction_toRatio (d : Double) : fraction d.toRatio = d.value := by
  rw [toRatio, fraction_scaleBinary, value, fraction, Nat.cast_one, div_one]

theorem toRatio_pos (d : Double) : 0 < d.toRatio.2 := scaleBinary_pos Nat.one_pos d.exponent

theorem toRatio_num_pos {d : Double} (h : 0 < d.value) : 0 < d.toRatio.1 := by
  refine Nat.pos_of_ne_zero fun hzero => h.ne' ?_
  rw [← fraction_toRatio, fraction, hzero, Nat.cast_zero, zero_div]

/-- A fraction near the magnitude of a finite double is rounded to it. -/
theorem ofRatio_eq {d : Double} {num den : Nat} (hd : d.isFinite = true) (hnum : 0 < num)
    (hden : 0 < den) (hnear : Near d.significand d.exponent (fraction (num, den))) :
    ofRatio num den = ofMagnitude false d.magnitude := by
  have hfinite : d.magnitude < infinityBits := of_decide_eq_true hd
  rw [d.magnitude_eq_encode] at hfinite ⊢
  rw [ofRatio, magnitudeOfRatio_eq d.legal hnum hden hnear hfinite.le]

theorem near_self (m : Nat) (q : Int) : Near m q (m * 2 ^ q) := by
  have hexact : (m : ℚ) * 2 ^ q * 2 ^ (-q) = m := by
    rw [mul_assoc, ← zpow_add₀ (by norm_num), add_neg_cancel, zpow_zero, mul_one]
  constructor <;> rw [hexact]
  · split_ifs <;> linarith
  · linarith
  · exact fun _ => ⟨by linarith, by linarith⟩

/-- What is a magnitude already is not changed. -/
theorem value_ofRatio {m : Nat} {q : Int} {num den : Nat} (hlegal : Legal m q)
    (hfinite : encode m q < infinityBits) (hnum : 0 < num) (hden : 0 < den)
    (h : fraction (num, den) = m * 2 ^ q) : (ofRatio num den).value = m * 2 ^ q := by
  have hmagnitude : (ofRatio num den).magnitude = encode m q := by
    rw [ofRatio, magnitudeOfRatio_eq hlegal hnum hden (h ▸ near_self m q) hfinite.le,
      magnitude_ofMagnitude false (hfinite.trans (by decide))]
  obtain ⟨hm, hq⟩ := fields_of_encode hlegal hmagnitude
  rw [value, hm, hq]

/-- Natural numbers of 53 bits are doubles. -/
theorem exists_legal {s : Nat} (hs : 0 < s) (hbound : s ≤ 2 ^ 53) :
    ∃ m q, Legal m q ∧ encode m q < infinityBits ∧ (s : ℚ) = m * 2 ^ q := by
  rcases Nat.lt_or_ge s (2 ^ 53) with hlt | hge
  · have hlow : 2 ^ s.log2 ≤ s := Nat.log2_self_le (by omega)
    have hhigh : s < 2 ^ (s.log2 + 1) := Nat.lt_log2_self
    have hlog : s.log2 < 53 := (Nat.log2_lt (by omega)).2 hlt
    -- moved up until its first bit is the hidden one
    obtain ⟨k, hk⟩ := Nat.exists_eq_add_of_le (show s.log2 ≤ 52 by omega)
    have hpow : 2 ^ s.log2 * 2 ^ k = hiddenBit := by rw [← Nat.pow_add, ← hk]; rfl
    have hnormal : hiddenBit ≤ s * 2 ^ k := hpow ▸ Nat.mul_le_mul_right _ hlow
    have hbound : s * 2 ^ k < 2 * hiddenBit := by
      rw [← hpow, ← Nat.mul_assoc, Nat.mul_comm 2, ← Nat.pow_succ]
      exact Nat.mul_lt_mul_of_pos_right hhigh (Nat.pow_pos (by decide))
    refine ⟨s * 2 ^ k, -k, ⟨by omega, hbound, fun _ => hnormal⟩, ?_, ?_⟩
    · have : (-(k : Int) + 1074).toNat ≤ 1074 := by omega
      have := Nat.mul_le_mul_right hiddenBit this
      simp only [encode, infinityBits, hiddenBit] at *
      omega
    · push_cast
      rw [mul_assoc, zpow_neg, zpow_natCast, mul_inv_cancel₀ (by positivity), mul_one]
  · obtain rfl : s = 2 ^ 53 := by omega
    exact ⟨hiddenBit, 1, ⟨by decide, by decide, fun _ => Nat.le_refl _⟩, by decide,
      by norm_num [hiddenBit]⟩

theorem value_ofNat {s : Nat} (hs : 0 < s) (hbound : s ≤ 2 ^ 53) : (ofRatio s 1).value = s := by
  obtain ⟨m, q, hlegal, hfinite, heq⟩ := exists_legal hs hbound
  rw [heq]
  exact value_ofRatio hlegal hfinite hs Nat.one_pos (by rw [fraction, Nat.cast_one, div_one, heq])

theorem fraction_mul {a b : Double} :
    fraction (a.toRatio.1 * b.toRatio.1, a.toRatio.2 * b.toRatio.2) = a.value * b.value := by
  rw [← fraction_toRatio, ← fraction_toRatio, fraction, fraction, fraction, Nat.cast_mul,
    Nat.cast_mul, mul_div_mul_comm]

theorem fraction_div {a b : Double} :
    fraction (a.toRatio.1 * b.toRatio.2, a.toRatio.2 * b.toRatio.1) = a.value / b.value := by
  rw [← fraction_toRatio, ← fraction_toRatio, fraction, fraction, fraction, Nat.cast_mul,
    Nat.cast_mul, div_div_div_eq]

end Double

end RecordLayer
