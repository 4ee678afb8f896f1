import RecordLayer.Double.Shortest

/-!
# Written doubles

How the digits of a double are laid out as text. A `Style` says up to which exponents the number is
written positionally, whether a whole number keeps `.0`, and which way a tie between two shortest
decimals goes.
-/

namespace RecordLayer.Double

/-- A way to write doubles. The point of a decimal is counted from its first digit: `12.5` has its
point at `2` and `0.05` at `-1`. -/
structure Style where
  /-- The range of the point for positional notation; `none` writes every number so. -/
  positional : Option (Int × Int)
  /-- Whether a whole number is written with `.0`. -/
  keepsPoint : Bool
  tie : Tie

/-- Digits with the point after the first `point` of them. -/
def positional (keepsPoint : Bool) (digits : List Char) (point : Int) : List Char :=
  if point ≤ 0 then '0' :: '.' :: List.replicate (-point).toNat '0' ++ digits
  else if digits.length ≤ point.toNat then
    digits ++ List.replicate (point.toNat - digits.length) '0' ++
      if keepsPoint then ['.', '0'] else []
  else digits.take point.toNat ++ '.' :: digits.drop point.toNat

/-- One digit, the point, the other digits, and the exponent. -/
def scientific (digits : List Char) (point : Int) : List Char :=
  let lead := match digits with
    | [] => ['0']
    | [c] => [c]
    | c :: rest => c :: '.' :: rest
  lead ++ 'e' :: (toString (point - 1)).toList

/-- A finite magnitude in the given style. -/
def writeMagnitude (style : Style) (d : Double) : List Char :=
  if d.magnitude = 0 then if style.keepsPoint then ['0', '.', '0'] else ['0']
  else
    let decimal := d.shortest style.tie
    let digits := Decimal.digitChars decimal.digits
    let point := digits.length + decimal.exponent
    match style.positional with
    | none => positional style.keepsPoint digits point
    | some (low, high) =>
      if low ≤ point ∧ point ≤ high then positional style.keepsPoint digits point
      else scientific digits point

/-- A double in the given style, with `NaN`, `inf` and `-inf` for what is not finite. -/
def write (style : Style) (d : Double) : String :=
  if d.isNaN then "NaN"
  else
    let body := if d.isFinite then String.ofList (d.writeMagnitude style) else "inf"
    if d.isNegative then "-" ++ body else body

/-- Numbers for readers: positional from `0.0001` and below `10 ^ 16`, a whole number with `.0`. -/
def readable : Style := ⟨some (-3, 16), true, .up⟩

/-- Numbers in full: positional at every size, a whole number without a point. -/
def plain : Style := ⟨none, false, .up⟩

/-- A finite magnitude with `places` decimals, an exact half going to the even digit. -/
def writeFixed (places : Nat) (d : Double) : String :=
  if d.isNaN then "NaN"
  else
    let body :=
      if d.isFinite then
        let (num, den) := d.toRatio
        let unit := Nat.pow 10 places
        let scaled := roundHalfEven (num * unit) den
        let fraction := (toString (scaled % unit)).toList
        toString (scaled / unit) ++
          if places = 0 then ""
          else "." ++ String.ofList (List.replicate (places - fraction.length) '0' ++ fraction)
      else "inf"
    if d.isNegative then "-" ++ body else body

end RecordLayer.Double
