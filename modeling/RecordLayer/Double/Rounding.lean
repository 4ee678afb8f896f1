import RecordLayer.Double

/-!
# Rounding to a double

The double nearest to a fraction of two natural numbers, with ties going to the even neighbour. A
sum, product or quotient of doubles is exact as a fraction, so rounding that fraction once gives the
double that arithmetic on doubles gives.
-/

namespace RecordLayer

/-- `num / den` to the nearest integer, an exact half going to the even neighbour. -/
def roundHalfEven (num den : Nat) : Nat :=
  let floor := num / den
  let rest := 2 * (num % den)
  if rest < den then floor
  else if den < rest then floor + 1
  else if floor % 2 = 0 then floor else floor + 1

namespace Double

/-- The fraction `(num, den)` scaled by `2 ^ q`. -/
def scaleBinary (num den : Nat) (q : Int) : Nat × Nat :=
  (num * Nat.pow 2 q.toNat, den * Nat.pow 2 (-q).toNat)

/-- The largest `e` with `2 ^ e ≤ num / den`. -/
def floorLog2 (num den : Nat) : Int :=
  let guess : Int := (Nat.log2 num : Int) - Nat.log2 den
  let (n, d) := scaleBinary num den (-guess)
  if d ≤ n then guess else guess - 1

/-- The magnitude nearest to `num / den`; what lies beyond the largest double becomes infinity. The
encoding is contiguous, so a significand that rounds up to `2 ^ 53` carries into the exponent. -/
def magnitudeOfRatio (num den : Nat) : Nat :=
  if num = 0 ∨ den = 0 then 0
  else
    let q := max (-1074) (floorLog2 num den - 52)
    let (n, d) := scaleBinary num den (-q)
    min infinityBits ((q + 1074).toNat * hiddenBit + roundHalfEven n d)

/-- The non-negative double nearest to `num / den`. -/
def ofRatio (num den : Nat) : Double := ofMagnitude false (magnitudeOfRatio num den)

/-- The fraction that the magnitude of a finite double stands for. -/
def toRatio (d : Double) : Nat × Nat := scaleBinary d.significand 1 d.exponent

/-- The rounded product of two non-negative finite doubles. -/
def mulMagnitude (a b : Double) : Double :=
  ofRatio (a.toRatio.1 * b.toRatio.1) (a.toRatio.2 * b.toRatio.2)

/-- The rounded quotient of two non-negative finite doubles, the second one positive. -/
def divMagnitude (a b : Double) : Double :=
  ofRatio (a.toRatio.1 * b.toRatio.2) (a.toRatio.2 * b.toRatio.1)

end Double

end RecordLayer
