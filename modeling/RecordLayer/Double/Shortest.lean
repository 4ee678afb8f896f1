import RecordLayer.Double.Rounding

/-!
# Shortest decimals

The decimal of fewest digits that rounds to a given double. For one digit, two digits and so on, the
value's two neighbours on that decimal grid are tested against the interval of reals that round to
the double; the first grid with a hit wins, and of two hits the nearer one.
-/

namespace RecordLayer

/-- A decimal `digits * 10 ^ exponent`. -/
structure Decimal where
  digits : Nat
  exponent : Int
deriving DecidableEq, Inhabited

/-- Which of two decimals that are equally near is taken. -/
inductive Tie
  | up
  | even
deriving DecidableEq

namespace Decimal

/-- The decimal digits of a number, most significant first; none for zero. -/
def digitChars (n : Nat) : List Char := if n = 0 then [] else Nat.toDigits 10 n

/-- How many digits are written. -/
def length (d : Decimal) : Nat := (digitChars d.digits).length

/-- Drops zeros at the end, at most `fuel` of them. -/
def stripZeros : Nat → Decimal → Decimal
  | 0, d => d
  | fuel + 1, d =>
    if d.digits ≠ 0 ∧ d.digits % 10 = 0 then stripZeros fuel ⟨d.digits / 10, d.exponent + 1⟩ else d

end Decimal

namespace Double

/-- The fraction `(num, den)` scaled by `10 ^ k`. -/
def scaleDecimal (num den : Nat) (k : Int) : Nat × Nat :=
  (num * Nat.pow 10 k.toNat, den * Nat.pow 10 (-k).toNat)

/-- The largest `e` with `10 ^ e ≤ num / den`. The guess from the binary logarithm is off by at most
one. -/
def floorLog10 (num den : Nat) : Int :=
  let guess := Int.fdiv (floorLog2 num den * 30103) 100000
  let atLeast (e : Int) : Bool := let (n, d) := scaleDecimal num den (-e); d ≤ n
  if atLeast (guess + 1) then guess + 1 else if atLeast guess then guess else guess - 1

/-- Four times the distance from the value to the lower end of its rounding interval, in units of
the last place: half a unit, or a quarter where the spacing halves below a power of two. -/
def lowerQuarters (d : Double) : Nat :=
  if d.significand = hiddenBit ∧ 1 < d.exponentField then 1 else 2

/-- Whether the decimal `n * 10 ^ e` rounds to the positive finite double `d`. -/
def roundsFrom (d : Double) (n : Nat) (e : Int) : Bool :=
  -- all sides are scaled to integers: four times the value in units of the last place
  let (num, den) := scaleDecimal (4 * n) 1 e
  let (num, den) := scaleBinary num den (-d.exponent)
  let low := (4 * d.significand - d.lowerQuarters) * den
  let high := (4 * d.significand + 2) * den
  if d.significand % 2 = 0 then low ≤ num && num ≤ high else low < num && num < high

/-- The neighbour of the value on the grid of `10 ^ e` that rounds to it, if there is one. -/
def gridNeighbour (tie : Tie) (d : Double) (e : Int) : Option Nat :=
  let (num, den) := d.toRatio
  let (num, den) := scaleDecimal num den (-e)
  let below := num / den
  let twice := 2 * (num % den)
  match d.roundsFrom below e, d.roundsFrom (below + 1) e with
  | false, false => none
  | true, false => some below
  | false, true => some (below + 1)
  | true, true =>
    if twice < den then some below
    else if den < twice then some (below + 1)
    else match tie with
      | .up => some (below + 1)
      | .even => if below % 2 = 0 then some below else some (below + 1)

/-- Tries the grids from `n` digits on, `fuel` of them. -/
def shortestFrom (tie : Tie) (d : Double) (lead : Int) : Nat → Nat → Decimal
  | _, 0 => ⟨0, 0⟩
  | n, fuel + 1 =>
    let e := lead + 1 - n
    match gridNeighbour tie d e with
    | some digits => Decimal.stripZeros 20 ⟨digits, e⟩
    | none => shortestFrom tie d lead (n + 1) fuel

/-- The shortest decimal that rounds to the magnitude of a finite double, `0` for a zero. Seventeen
digits always suffice. -/
def shortest (tie : Tie) (d : Double) : Decimal :=
  if d.significand = 0 then ⟨0, 0⟩
  else
    let (num, den) := d.toRatio
    shortestFrom tie (ofMagnitude false d.magnitude) (floorLog10 num den) 1 17

end Double

end RecordLayer
