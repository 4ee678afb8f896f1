import RecordLayer.Proofs.Document.Format
import RecordLayer.Proofs.Double.Shortest

/-!
# Doubles with short decimals are read back

The standard format reads a numeral with three roundings: of its digits, of a power of ten, and of
their product or quotient. The first two change nothing if the digits have 53 bits and the power is
at most `10 ^ 22`. **Then the third gives the double that the numeral was written for,** since the
shortest decimal of a double lies in its interval.
-/

namespace RecordLayer

namespace Numeral

/-! ## The number that is written -/

/-- The number that a numeral stands for, its sign aside. -/
def value (n : Numeral) : ℚ :=
  digitsValue (n.whole ++ n.fraction) * 10 ^ (n.exponent.getD 0 - n.fraction.length)

/-- The power of ten that the significand is scaled by. -/
def power (n : Numeral) : Int := n.significand.2 + n.exponent.getD 0

/-- The significand and the power of ten are doubles themselves. -/
def Exact (n : Numeral) : Prop :=
  0 < n.significand.1 ∧ n.significand.1 ≤ 2 ^ 53 ∧ n.power.natAbs ≤ 22

instance (n : Numeral) : Decidable n.Exact := inferInstanceAs (Decidable (_ ∧ _ ∧ _))

theorem digitsValue_append_zeros (digits : List Char) (k : Nat) :
    digitsValue (digits ++ List.replicate k '0') = digitsValue digits * 10 ^ k := by
  change Nat.ofDigitChars 10 _ 0 = Nat.ofDigitChars 10 _ 0 * _
  rw [Nat.ofDigitChars_append, Nat.ofDigitChars_replicate_zero, Nat.mul_comm]

theorem digitsValue_zeros_append (digits : List Char) (k : Nat) :
    digitsValue (List.replicate k '0' ++ digits) = digitsValue digits := by
  change Nat.ofDigitChars 10 _ 0 = Nat.ofDigitChars 10 _ 0
  rw [Nat.ofDigitChars_append, Nat.ofDigitChars_replicate_zero, Nat.mul_zero]

theorem le_takeDigits (s : Nat) (digits : List Char) : s ≤ (takeDigits s digits).1 := by
  induction digits generalizing s with
  | nil => exact Nat.le_refl s
  | cons c digits ih =>
    rw [takeDigits]
    split
    · exact Nat.le_trans (by omega) (ih _)
    · exact Nat.le_refl s

/-- A significand of 53 bits would have had room for one more digit, so it has all of them. -/
theorem takeDigits_eq {s : Nat} {digits : List Char} (hdigits : ∀ c ∈ digits, c.isDigit = true)
    (h : (takeDigits s digits).1 ≤ 2 ^ 53) :
    takeDigits s digits = (Nat.ofDigitChars 10 digits s, []) := by
  induction digits generalizing s with
  | nil => rfl
  | cons c digits ih =>
    rw [takeDigits] at h ⊢
    split_ifs at h ⊢ with hroom
    · exact ih (fun d hd => hdigits d (List.mem_cons_of_mem c hd)) h
    · -- a digit that finds no room is behind a significand of more than 53 bits
      have hc : c.toNat ≤ 57 := by
        have := hdigits c List.mem_cons_self
        simp only [Char.isDigit, Bool.and_eq_true, decide_eq_true_eq] at this
        exact this.2
      simp only [wordLimit, show '0'.toNat = 48 from rfl] at h hroom
      omega

theorem significand_eq {n : Numeral} (hn : n.Proper) (h : n.significand.1 ≤ 2 ^ 53) :
    n.significand = (digitsValue (n.whole ++ n.fraction), -(n.fraction.length : Int)) := by
  have hwhole := takeDigits_eq (s := 0) hn.whole (Nat.le_trans (le_takeDigits _ _) h)
  have hfraction := takeDigits_eq hn.fraction h
  have hvalue : digitsValue (n.whole ++ n.fraction) =
      Nat.ofDigitChars 10 n.fraction (Nat.ofDigitChars 10 n.whole 0) := Nat.ofDigitChars_append 0
  simp only [hwhole] at hfraction
  simp only [significand, hwhole, hfraction, hvalue, List.length_nil, Nat.sub_zero, Nat.cast_zero,
    Int.zero_sub]

theorem Exact.value_eq {n : Numeral} (h : n.Exact) (hn : n.Proper) :
    n.value = n.significand.1 * 10 ^ n.power := by
  rw [value, power, significand_eq hn h.2.1, add_comm, Int.sub_eq_add_neg]

/-! ## Scaling -/

theorem value_powerOfTen {k : Nat} (h : k ≤ 22) : (powerOfTen k).value = 10 ^ k := by
  -- from `10 ^ 16` on these have more than 53 bits, but the last ones are zeros
  have hexact : ∀ k < 23, (powerOfTen k).toRatio.1 = 10 ^ k * (powerOfTen k).toRatio.2 := by
    decide +kernel
  have hden : ((powerOfTen k).toRatio.2 : ℚ) ≠ 0 := by
    exact_mod_cast (powerOfTen k).toRatio_pos.ne'
  rw [← Double.fraction_toRatio, RecordLayer.fraction, hexact k (by omega)]
  push_cast
  exact mul_div_cancel_right₀ _ hden

/-- One rounding of an exact product or quotient. -/
theorem scale_eq {d : Double} (hd : d.isFinite = true) {s : Nat} {e : Int} (hs : 0 < s)
    (hbound : s ≤ 2 ^ 53) (he : e.natAbs ≤ 22)
    (hnear : Double.Near d.significand d.exponent (s * 10 ^ e)) :
    scale s e = some (.ofMagnitude false d.magnitude) := by
  have hfinite : (Double.ofMagnitude false d.magnitude).isFinite = true := by
    rw [Double.isFinite, Double.magnitude_signed]
    exact hd
  have hvalue : (Double.ofRatio s 1).value = s := Double.value_ofNat hs hbound
  have hvalue_pos : 0 < (Double.ofRatio s 1).value := by
    rw [hvalue]
    exact_mod_cast hs
  have hpower : (powerOfTen e.natAbs).value = 10 ^ e.natAbs := value_powerOfTen he
  have hpower_pos : 0 < (powerOfTen e.natAbs).value := by
    rw [hpower]
    positivity
  have hnum := Double.toRatio_num_pos hvalue_pos
  have hten := Double.toRatio_num_pos hpower_pos
  rw [scale, if_neg (by omega)]
  by_cases hsign : 0 ≤ e
  · have hproduct : (Double.ofRatio s 1).mulMagnitude (powerOfTen e.toNat) =
        .ofMagnitude false d.magnitude := by
      rw [show e.toNat = e.natAbs by omega]
      refine Double.ofRatio_eq hd (Nat.mul_pos hnum hten)
        (Nat.mul_pos (Double.toRatio_pos _) (Double.toRatio_pos _)) ?_
      rwa [Double.fraction_mul, hvalue, hpower, ← zpow_natCast, Int.natAbs_of_nonneg hsign]
    rw [if_pos hsign, hproduct]
    exact if_pos hfinite
  · have hquotient : (Double.ofRatio s 1).divMagnitude (powerOfTen (-e).toNat) =
        .ofMagnitude false d.magnitude := by
      rw [show (-e).toNat = e.natAbs by omega]
      refine Double.ofRatio_eq hd (Nat.mul_pos hnum (Double.toRatio_pos _))
        (Nat.mul_pos (Double.toRatio_pos _) hten) ?_
      rwa [Double.fraction_div, hvalue, hpower, div_eq_mul_inv, ← zpow_natCast, ← zpow_neg,
        show -(e.natAbs : Int) = e by omega]
    have hclose : scaleDown 2 (Double.ofRatio s 1) e = (Double.ofRatio s 1, e) := by
      rw [scaleDown, if_neg (by omega)]
    rw [if_neg hsign, hclose]
    simp only
    rw [if_neg (by omega), hquotient]

/-! ## Shortest decimals -/

/-- What is written of a double has the digits of its shortest decimal, with zeros beside them. -/
theorem ofDouble_digits {d : Double} (h : (d.shortest .even).digits ≠ 0) :
    ∃ k : Nat,
      digitsValue ((ofDouble d).whole ++ (ofDouble d).fraction) =
        (d.shortest .even).digits * 10 ^ k ∧
      (d.shortest .even).exponent =
        k + ((ofDouble d).exponent.getD 0 - (ofDouble d).fraction.length) := by
  have hempty : (Nat.toDigits 10 (d.shortest .even).digits).isEmpty = false :=
    List.isEmpty_eq_false_iff.2 Nat.toDigits_ne_nil
  have hvalue := ofDigits_toDigits (d.shortest .even).digits
  simp only [ofDouble, Decimal.digitChars, if_neg h]
  generalize (d.shortest .even).exponent = e
  generalize Nat.toDigits 10 (d.shortest .even).digits = digits at hempty hvalue ⊢
  have hlength : 0 < digits.length := by
    cases digits
    · cases hempty
    · exact Nat.succ_pos _
  simp only [hempty, Bool.false_eq_true, if_false]
  -- with an exponent, behind the point, in front of it, and on both sides of it
  split_ifs with hexponent hpoint hwhole
  · refine ⟨0, ?_, ?_⟩
    · rw [List.take_append_drop, hvalue, Nat.pow_zero, Nat.mul_one]
    · simp
      omega
  · refine ⟨0, ?_, ?_⟩
    · rw [Nat.pow_zero, Nat.mul_one, ← hvalue]
      exact digitsValue_zeros_append digits ((-((digits.length : Int) + e)).toNat + 1)
    · simp
      omega
  · refine ⟨((digits.length : Int) + e).toNat - digits.length + 1, ?_, ?_⟩
    · rw [List.isEmpty_iff, List.drop_eq_nil_iff] at hwhole
      rw [List.take_of_length_le hwhole, List.append_assoc, ← List.replicate_succ',
        digitsValue_append_zeros, hvalue]
    · simp at hwhole ⊢
      omega
  · refine ⟨((digits.length : Int) + e).toNat - digits.length, ?_, ?_⟩
    · rw [List.take_append_drop, digitsValue_append_zeros, hvalue]
    · simp
      omega

theorem value_ofDouble {d : Double} (h : (d.shortest .even).digits ≠ 0) :
    (ofDouble d).value = (d.shortest .even).value := by
  obtain ⟨k, hdigits, hexponent⟩ := ofDouble_digits h
  rw [value, Decimal.value, hdigits, hexponent, zpow_add₀ (by norm_num), zpow_natCast]
  push_cast
  ring

theorem negative_ofDouble (d : Double) : (ofDouble d).negative = d.isNegative := by
  simp only [ofDouble]
  split_ifs <;> rfl

/-- The digits after the point are fewer than those of the shortest decimal, if an
exponent is written. -/
theorem fraction_ofDouble_length {d : Double} {x : Int} (hx : (ofDouble d).exponent = some x) :
    (ofDouble d).fraction.length < (Nat.toDigits 10 (d.shortest .even).digits).length := by
  have hlength := Nat.length_toDigits_pos (b := 10) (n := (d.shortest .even).digits)
  simp only [ofDouble, Decimal.digitChars] at hx ⊢
  split_ifs at hx ⊢ <;> simp_all

theorem Exact.digits_ne_zero {d : Double} (h : (ofDouble d).Exact) :
    (d.shortest .even).digits ≠ 0 := by
  intro hzero
  have hwritten : (ofDouble d).significand = (0, -1) := by
    simp only [ofDouble, hzero, Decimal.digitChars, if_true, List.isEmpty_nil]
    rfl
  exact absurd h.1 (by rw [hwritten]; decide)

/-- The exponent that is written is not beyond those that are read in full. -/
theorem Exact.exponent_le {d : Double} (h : (ofDouble d).Exact) {x : Int}
    (hx : (ofDouble d).exponent = some x) : x.natAbs ≤ maxExponent := by
  obtain ⟨k, hdigits, -⟩ := ofDouble_digits h.digits_ne_zero
  have hsignificand := significand_eq (ofDouble_proper d) h.2.1
  have hbits : (d.shortest .even).digits ≤ 2 ^ 53 :=
    calc (d.shortest .even).digits
        ≤ (d.shortest .even).digits * 10 ^ k := Nat.le_mul_of_pos_right _ (Nat.pow_pos (by decide))
      _ = (ofDouble d).significand.1 := by rw [hsignificand, hdigits]
      _ ≤ 2 ^ 53 := h.2.1
  have hlength : (Nat.toDigits 10 (d.shortest .even).digits).length ≤ 16 :=
    (Nat.length_toDigits_le_iff (by decide) (by decide)).2 (by omega)
  have hfraction := fraction_ofDouble_length hx
  have hpower := h.2.2
  rw [power, hsignificand, hx, Option.getD_some] at hpower
  simp only [maxExponent]
  omega

theorem Exact.magnitude_ofDouble {d : Double} (h : (ofDouble d).Exact) (hd : d.isFinite = true) :
    (ofDouble d).magnitude? = some (.ofMagnitude false d.magnitude) := by
  have hscale : scale (ofDouble d).significand.1 (ofDouble d).power =
      some (.ofMagnitude false d.magnitude) := by
    refine scale_eq hd h.1 h.2.1 h.2.2 ?_
    rw [← h.value_eq (ofDouble_proper d), value_ofDouble h.digits_ne_zero]
    exact d.shortest_near .even h.digits_ne_zero
  rw [power] at hscale
  rw [magnitude?]
  cases hx : (ofDouble d).exponent with
  | none => simpa [hx] using hscale
  | some x => simpa [hx, h.exponent_le hx] using hscale

theorem magnitude_ofDouble_zero {d : Double} (h : d.magnitude = 0) :
    (ofDouble d).magnitude? = some (.ofMagnitude false d.magnitude) := by
  have hsignificand : d.significand = 0 := by
    rw [Double.significand, Double.exponentField, h]
    rfl
  have hshortest : d.shortest .even = ⟨0, 0⟩ := by rw [Double.shortest, if_pos hsignificand]
  have hwritten : ofDouble d = { negative := d.isNegative, whole := ['0'], fraction := ['0'] } := by
    simp only [ofDouble, hshortest, Decimal.digitChars, if_true, List.isEmpty_nil]
  rw [hwritten, h]
  cases d.isNegative <;> decide +kernel

/-- **A double is read back from its numeral if the digits and the power of ten are exact.** -/
theorem toDouble?_ofDouble {d : Double} (hd : d.isFinite = true)
    (h : d.magnitude = 0 ∨ (ofDouble d).Exact) : (ofDouble d).toDouble? = some d := by
  have hmagnitude : (ofDouble d).magnitude? = some (.ofMagnitude false d.magnitude) :=
    h.elim magnitude_ofDouble_zero fun h => h.magnitude_ofDouble hd
  have hneg : (Double.ofMagnitude false d.magnitude).neg = .ofMagnitude true d.magnitude := by
    rw [Double.neg, Double.magnitude_signed, Double.isNegative_ofMagnitude false d.magnitude_lt]
    rfl
  have hself := d.ofMagnitude_self
  rw [toDouble?, hmagnitude, Option.map_some, negative_ofDouble, hneg]
  cases hsign : d.isNegative with
  | true => rw [if_pos rfl, ← hsign, hself]
  | false => rw [if_neg Bool.false_ne_true, ← hsign, hself]

end Numeral

/-- The double is finite, and zero or written with an exact significand and power of ten. -/
def Double.Short (d : Double) : Prop :=
  d.isFinite = true ∧ (d.magnitude = 0 ∨ (Numeral.ofDouble d).Exact)

/-- **The standard format keeps doubles with short decimals.** -/
theorem Document.Format.standard_keeps {d : Double} (h : d.Short) : standard.Keeps d := by
  have hnumeral : standard.ofDouble? d = some (.ofDouble d) := if_pos h.1
  rw [Keeps, hnumeral, Option.bind_some]
  exact Numeral.toDouble?_ofDouble h.1 h.2

end RecordLayer
