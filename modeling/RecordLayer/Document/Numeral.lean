import RecordLayer.Double.Notation

/-!
# Numerals

A number as a JSON document writes it: sign, digits, fraction, exponent. The standard format reads
integers exactly. It reads a double from at most 64 bits of significand, scaled by a power of ten
that is itself a double: what is read is within a rounding or two of what is written, and a numeral
whose digits and power are both exact doubles is read as the nearest one.
-/

namespace RecordLayer

/-- A number as written. -/
structure Numeral where
  negative : Bool := false
  /-- The digits before the point, without a zero in front of others. -/
  whole : List Char
  /-- The digits after the point; none without a point. -/
  fraction : List Char := []
  exponent : Option Int := none
deriving DecidableEq, Inhabited

namespace Numeral

/-! ## Reading a word -/

/-- The digits at the front and the rest. -/
def splitDigits (cs : List Char) : List Char × List Char :=
  (cs.takeWhile Char.isDigit, cs.dropWhile Char.isDigit)

/-- A minus sign at the front, if there is one. -/
def splitSign : List Char → Bool × List Char
  | '-' :: rest => (true, rest)
  | cs => (false, cs)

/-- The digits before the point; a zero stands alone. -/
def splitWhole (cs : List Char) : Option (List Char × List Char) :=
  match splitDigits cs with
  | ([], _) => none
  | ('0' :: _ :: _, _) => none
  | split => some split

/-- The point and the digits after it, if there is a point. -/
def splitFraction : List Char → Option (List Char × List Char)
  | '.' :: rest =>
    match splitDigits rest with
    | ([], _) => none
    | split => some split
  | cs => some ([], cs)

/-- The number that digits stand for. -/
def digitsValue (digits : List Char) : Nat :=
  digits.foldl (fun n c => 10 * n + (c.toNat - '0'.toNat)) 0

/-- The digits of an exponent, which end the word. -/
def exponentDigits (cs : List Char) : Option Nat :=
  match splitDigits cs with
  | (c :: digits, []) => some (digitsValue (c :: digits))
  | _ => none

/-- The exponent at the end of a word, if there is one. -/
def readExponent : List Char → Option (Option Int)
  | [] => some none
  | e :: rest =>
    if e = 'e' ∨ e = 'E' then
      match rest with
      | '-' :: digits => (exponentDigits digits).map fun n => some (-(n : Int))
      | '+' :: digits => (exponentDigits digits).map fun n => some (n : Int)
      | digits => (exponentDigits digits).map fun n => some (n : Int)
    else none

/-- The numeral that is written by a whole word. -/
def ofWord? (word : List Char) : Option Numeral := do
  let (negative, rest) := splitSign word
  let (whole, rest) ← splitWhole rest
  let (fraction, rest) ← splitFraction rest
  let exponent ← readExponent rest
  return { negative, whole, fraction, exponent }

/-! ## Values -/

/-- Whether a numeral is written as an integer. A negative zero is not one. -/
def isInteger (n : Numeral) : Bool :=
  n.fraction.isEmpty && n.exponent.isNone && !(n.negative && digitsValue n.whole == 0)

/-- How many different words of 64 bits there are. -/
def wordLimit : Nat := 0x10000000000000000

/-- The integer that is written. -/
def toInt? (n : Numeral) : Option Int :=
  let value : Int := digitsValue n.whole
  if n.isInteger then some (if n.negative then -value else value) else none

/-- Takes digits into a significand as long as it stays below `wordLimit`, and leaves the others. -/
def takeDigits (significand : Nat) : List Char → Nat × List Char
  | [] => (significand, [])
  | c :: rest =>
    let next := 10 * significand + (c.toNat - '0'.toNat)
    if next < wordLimit then takeDigits next rest else (significand, c :: rest)

/-- The significand and the power of ten that a double is read from, exponent aside. A digit that
finds no room counts as a zero before the point and is dropped after it. -/
def significand (n : Numeral) : Nat × Int :=
  let (s, left) := takeDigits 0 n.whole
  let (s, dropped) := takeDigits s n.fraction
  (s, left.length - (n.fraction.length - dropped.length : Nat))

/-- The largest exponent that is read in full. -/
def maxExponent : Nat := 0x7fffffff

/-- The double nearest to `10 ^ k`. -/
def powerOfTen (k : Nat) : Double := .ofRatio (Nat.pow 10 k) 1

/-- A double divided by `10 ^ 308` while its power of ten is below that of any double. Twice is
enough for a significand of 64 bits to become zero. -/
def scaleDown : Nat → Double → Int → Double × Int
  | 0, d, e => (d, e)
  | fuel + 1, d, e =>
    if e < -308 then scaleDown fuel (d.divMagnitude (powerOfTen 308)) (e + 308) else (d, e)

/-- The magnitude `s * 10 ^ e`, unless it is beyond the largest double. -/
def scale (s : Nat) (e : Int) : Option Double :=
  let d := Double.ofRatio s 1
  if 308 < e then if s = 0 then some d else none
  else if 0 ≤ e then
    let product := d.mulMagnitude (powerOfTen e.toNat)
    if product.isFinite then some product else none
  else
    let (d, e) := scaleDown 2 d e
    if e < -308 then some d else some (d.divMagnitude (powerOfTen (-e).toNat))

/-- The magnitude of a numeral as a double. -/
def magnitude? (n : Numeral) : Option Double :=
  let (s, e) := n.significand
  match n.exponent with
  | none => scale s e
  | some x =>
    if x.natAbs ≤ maxExponent then scale s (e + x)
    else if 0 < x ∧ s ≠ 0 then none
    else some (.ofRatio 0 1)

/-- The double that is written, unless it is beyond the largest one. -/
def toDouble? (n : Numeral) : Option Double :=
  n.magnitude?.map fun d => if n.negative then d.neg else d

/-! ## Writing -/

/-- An integer as a numeral. -/
def ofInt (i : Int) : Numeral := { negative := i < 0, whole := Nat.toDigits 10 i.natAbs }

/-- A finite double as its shortest decimal, of two equally near ones the one with an even last
digit. It is positional from `0.00001` and below `10 ^ 16`, and always has a fraction or an
exponent. -/
def ofDouble (d : Double) : Numeral :=
  let decimal := d.shortest .even
  let digits := Decimal.digitChars decimal.digits
  let point : Int := digits.length + decimal.exponent
  if digits.isEmpty then { negative := d.isNegative, whole := ['0'], fraction := ['0'] }
  else if point < -4 ∨ 16 < point then
    { negative := d.isNegative, whole := digits.take 1, fraction := digits.drop 1,
      exponent := some (point - 1) }
  else if point ≤ 0 then
    { negative := d.isNegative, whole := ['0'],
      fraction := List.replicate (-point).toNat '0' ++ digits }
  else
    let padded := digits ++ List.replicate (point.toNat - digits.length) '0'
    let fraction := padded.drop point.toNat
    { negative := d.isNegative, whole := padded.take point.toNat,
      fraction := if fraction.isEmpty then ['0'] else fraction }

/-- An exponent with its sign. -/
def writeExponent (e : Int) : List Char :=
  'e' :: (if e < 0 then '-' else '+') :: Nat.toDigits 10 e.natAbs

/-- A numeral as a word. -/
def write (n : Numeral) : List Char :=
  (if n.negative then ['-'] else []) ++ n.whole ++
    (if n.fraction.isEmpty then [] else '.' :: n.fraction) ++
    match n.exponent with
    | none => []
    | some e => writeExponent e

end Numeral

end RecordLayer
