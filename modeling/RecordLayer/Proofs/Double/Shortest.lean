import RecordLayer.Double.Shortest
import RecordLayer.Proofs.Double.Rounding

/-!
# Shortest decimals are near

The shortest decimal of a double is taken from a grid only if it lies in the interval of the numbers
that are rounded to the double. Zeros at its end are dropped, which does not change the number.
-/

namespace RecordLayer

/-- The number that a decimal stands for. -/
def Decimal.value (x : Decimal) : ℚ := x.digits * 10 ^ x.exponent

theorem Decimal.value_stripZeros (fuel : Nat) (x : Decimal) :
    (stripZeros fuel x).value = x.value := by
  induction fuel generalizing x with
  | zero => rfl
  | succ fuel ih =>
    rw [stripZeros]
    split_ifs with h
    · have hdigits : (x.digits : ℚ) = (x.digits / 10 : Nat) * 10 := by
        exact_mod_cast (Nat.div_mul_cancel (Nat.dvd_of_mod_eq_zero h.2)).symm
      rw [ih, value, value, hdigits, zpow_add₀ (by norm_num), zpow_one]
      ring
    · rfl

namespace Double

variable {d : Double}

theorem fraction_scaleDecimal (num den : Nat) (e : Int) :
    fraction (scaleDecimal num den e) = fraction (num, den) * (10 : ℚ) ^ e :=
  fraction_scaled 10 num den e

theorem lowerQuarters_eq (d : Double) :
    d.lowerQuarters = if d.significand = hiddenBit ∧ -1074 < d.exponent then 1 else 2 := by
  have hfield : 1 < d.exponentField ↔ -1074 < d.exponent := by
    rcases d.exponent_eq_exponentField with ⟨hfield, hq, -⟩ | ⟨hfield, hq, -⟩ <;> omega
  rw [lowerQuarters]
  simp only [hfield]

theorem le_fraction_iff {r : Nat × Nat} (hden : 0 < r.2) (k : Nat) :
    k * r.2 ≤ r.1 ↔ (k : ℚ) ≤ fraction r := by
  have hden : (0 : ℚ) < r.2 := by exact_mod_cast hden
  rw [fraction, le_div_iff₀ hden]
  exact_mod_cast Iff.rfl

theorem fraction_le_iff {r : Nat × Nat} (hden : 0 < r.2) (k : Nat) :
    r.1 ≤ k * r.2 ↔ fraction r ≤ k := by
  have hden : (0 : ℚ) < r.2 := by exact_mod_cast hden
  rw [fraction, div_le_iff₀ hden]
  exact_mod_cast Iff.rfl

/-- What the test for rounding accepts lies in the interval. -/
theorem near_of_roundsFrom (hm : 0 < d.significand) {n : Nat} {e : Int}
    (h : d.roundsFrom n e = true) : Near d.significand d.exponent (n * 10 ^ e) := by
  obtain ⟨r, hr⟩ : ∃ r, r = scaleBinary (scaleDecimal (4 * n) 1 e).1 (scaleDecimal (4 * n) 1 e).2
    (-d.exponent) := ⟨_, rfl⟩
  have hden : 0 < r.2 :=
    hr ▸ scaleBinary_pos (Nat.mul_pos Nat.one_pos (Nat.pow_pos (by decide))) (-d.exponent)
  have hfraction : fraction r = 4 * ((n : ℚ) * 10 ^ e * 2 ^ (-d.exponent)) := by
    rw [hr, fraction_scaleBinary]
    change fraction (scaleDecimal (4 * n) 1 e) * _ = _
    rw [fraction_scaleDecimal, fraction]
    push_cast
    ring
  have hlower : ((4 * d.significand - d.lowerQuarters : Nat) : ℚ) = 4 * d.significand -
      (if d.significand = hiddenBit ∧ -1074 < d.exponent then 1 else 2) := by
    rw [lowerQuarters_eq]
    split_ifs <;> rw [Nat.cast_sub (by omega)] <;> push_cast <;> rfl
  have hupper : ((4 * d.significand + 2 : Nat) : ℚ) = 4 * d.significand + 2 := by push_cast; rfl
  have hlow := le_fraction_iff hden (4 * d.significand - d.lowerQuarters)
  have hhigh := fraction_le_iff hden (4 * d.significand + 2)
  have hlow' := fraction_le_iff hden (4 * d.significand - d.lowerQuarters)
  have hhigh' := le_fraction_iff hden (4 * d.significand + 2)
  rw [hlower, hfraction] at hlow hlow'
  rw [hupper, hfraction] at hhigh hhigh'
  by_cases heven : d.significand % 2 = 0
  · have htest : (4 * d.significand - d.lowerQuarters) * r.2 ≤ r.1 ∧
        r.1 ≤ (4 * d.significand + 2) * r.2 := by
      simpa [hr, roundsFrom, heven] using h
    exact ⟨hlow.1 htest.1, hhigh.1 htest.2, fun hodd => by omega⟩
  · have htest : (4 * d.significand - d.lowerQuarters) * r.2 < r.1 ∧
        r.1 < (4 * d.significand + 2) * r.2 := by
      simpa [hr, roundsFrom, heven] using h
    -- the significand below which the spacing halves is even
    have hnot : ¬(d.significand = hiddenBit ∧ -1074 < d.exponent) := fun hhidden => by
      rw [hhidden.1] at heven
      exact heven (by decide)
    rw [if_neg hnot] at hlow hlow'
    refine ⟨by rw [if_neg hnot]; exact hlow.1 htest.1.le, hhigh.1 htest.2.le, fun _ => ⟨?_, ?_⟩⟩
    · exact lt_of_not_ge fun hle => htest.1.not_ge (hlow'.2 hle)
    · exact lt_of_not_ge fun hle => htest.2.not_ge (hhigh'.2 hle)

theorem near_of_gridNeighbour (hm : 0 < d.significand) {tie : Tie} {e : Int} {n : Nat}
    (h : gridNeighbour tie d e = some n) : Near d.significand d.exponent (n * 10 ^ e) := by
  refine near_of_roundsFrom hm ?_
  simp only [gridNeighbour] at h
  generalize scaleDecimal d.toRatio.1 d.toRatio.2 (-e) = r at h
  generalize r.1 / r.2 = below at h
  split at h
  · cases h
  · rename_i hbelow _
    exact Option.some.inj h ▸ hbelow
  · rename_i habove
    exact Option.some.inj h ▸ habove
  · rename_i hbelow habove
    have hone : n = below ∨ n = below + 1 := by
      clear hbelow habove
      grind
    rcases hone with rfl | rfl
    · exact hbelow
    · exact habove

/-- The search gives a decimal in the interval, if it finds one. -/
theorem shortestFrom_near (hm : 0 < d.significand) (tie : Tie) (lead : Int) (n fuel : Nat) :
    (shortestFrom tie d lead n fuel).digits = 0 ∨
      Near d.significand d.exponent (shortestFrom tie d lead n fuel).value := by
  induction fuel generalizing n with
  | zero => exact .inl rfl
  | succ fuel ih =>
    rw [shortestFrom]
    split
    · rename_i digits hgrid
      rw [Decimal.value_stripZeros]
      exact .inr (near_of_gridNeighbour hm hgrid)
    · exact ih (n + 1)

/-- **The shortest decimal of a double is rounded to it.** -/
theorem shortest_near (d : Double) (tie : Tie) (h : (d.shortest tie).digits ≠ 0) :
    Near d.significand d.exponent (d.shortest tie).value := by
  have hm : 0 < d.significand := by
    refine Nat.pos_of_ne_zero fun hzero => h ?_
    rw [shortest, if_pos hzero]
  obtain ⟨hsignificand, hexponent⟩ :=
    fields_of_encode d.legal ((magnitude_signed false d).trans d.magnitude_eq_encode)
  rw [shortest, if_neg hm.ne'] at h ⊢
  rw [← hsignificand, ← hexponent]
  exact (shortestFrom_near (hsignificand ▸ hm) tie _ 1 17).resolve_left h

end Double

end RecordLayer
