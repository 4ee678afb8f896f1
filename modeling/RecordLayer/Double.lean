/-!
# Doubles

A double-precision number is kept as its 64 bits, so that the sign of zero and the payload of a NaN
are part of it. This file holds the fields of those bits, the exact value they stand for, and the
total order, which compares every pair of bit patterns and never calls two different ones equal.
-/

namespace RecordLayer

/-- A double-precision number, given by its bits: sign, eleven exponent bits, 52 fraction bits. -/
structure Double where
  bits : UInt64
deriving DecidableEq, Hashable, Inhabited

namespace Double

/-- The weight of the sign bit. -/
def signBit : Nat := 0x8000000000000000

/-- The weight of the hidden bit, just above the 52 fraction bits. -/
def hiddenBit : Nat := 0x10000000000000

/-- The bits of positive infinity; every larger magnitude is a NaN. -/
def infinityBits : Nat := 0x7ff0000000000000

/-- The bits without the sign, as a number. -/
def magnitude (d : Double) : Nat := d.bits.toNat % signBit

/-- Whether the sign bit is set. -/
def isNegative (d : Double) : Bool := signBit ≤ d.bits.toNat

/-- Neither infinite nor a NaN. -/
def isFinite (d : Double) : Bool := d.magnitude < infinityBits

/-- Whether the bits are one of the NaN patterns. -/
def isNaN (d : Double) : Bool := infinityBits < d.magnitude

/-- The exponent field. -/
def exponentField (d : Double) : Nat := d.magnitude / hiddenBit

/-- The integer `m` of a finite value `m * 2 ^ q`, with the hidden bit of a normal number. -/
def significand (d : Double) : Nat :=
  if d.exponentField = 0 then d.magnitude else d.magnitude % hiddenBit + hiddenBit

/-- The exponent `q` of a finite value `m * 2 ^ q`. -/
def exponent (d : Double) : Int := (max 1 d.exponentField : Nat) - 1075

/-- Puts a sign on a magnitude. -/
def ofMagnitude (negative : Bool) (magnitude : Nat) : Double :=
  ⟨(magnitude + if negative then signBit else 0).toUInt64⟩

/-- The same number with the other sign. -/
def neg (d : Double) : Double := ofMagnitude (!d.isNegative) d.magnitude

/-- The place of a double in the total order: negative patterns stand below the positive ones, and
among them a larger magnitude stands lower. -/
def orderKey (d : Double) : Int :=
  if d.isNegative then -1 - (d.magnitude : Int) else d.magnitude

/-- The total order of bit patterns: `-0.0` is below `0.0`, and a positive NaN above everything. -/
protected def compare (a b : Double) : Ordering := Ord.compare a.orderKey b.orderKey

instance : Ord Double := ⟨Double.compare⟩

/-- The number as a machine float. -/
def toFloat (d : Double) : Float := Float.ofBits d.bits

/-- The bits of a machine float. -/
def ofFloat (x : Float) : Double := ⟨x.toBits⟩

end Double

end RecordLayer
