import RecordLayer.Value

/-!
# Hashing values

What the hash of a value is computed from: the place of its kind in the order of kinds, and then its
content. Both are written as octets, a number with the least significant octet first; a text is
ended by an octet that no text contains.
-/

namespace RecordLayer.Value

/-- The low `count` octets of a number, the least significant one first. -/
def octets : Nat → Nat → List UInt8
  | 0, _ => []
  | count + 1, n => n.toUInt8 :: octets count (n / 256)

/-- The content of a value, bit by bit. -/
def payload : Value → List UInt8
  | null => []
  | bool b => [b.toUInt8]
  | int i => octets 8 i.toUInt64.toNat
  | double d => octets 8 d.bits.toNat
  | text s => s.toUTF8.data.toList ++ [0xff]

/-- What the hash of a value is computed from. -/
def hashed (v : Value) : List UInt8 := octets 8 v.kind.rank ++ v.payload

end RecordLayer.Value
