import RecordLayer.Digest

/-!
# Fingerprints

A fingerprint stands for a canonical text: its SHA-256 digest. Fingerprints are
ordered byte by byte.
-/

namespace RecordLayer

/-- A digest of 32 bytes. -/
structure Fingerprint where
  bytes : List UInt8
deriving DecidableEq, Inhabited

namespace Fingerprint

/-- The fingerprint of a text. -/
def ofText (text : String) : Fingerprint := ⟨Digest.sha256 text.toUTF8.toList⟩

/-- A fingerprint from raw bytes, filled up with zeros or cut to 32. -/
def ofBytes (bytes : List UInt8) : Fingerprint := ⟨(bytes ++ List.replicate 32 0).take 32⟩

/-- All 64 digits. -/
def toHex (f : Fingerprint) : String := Text.hexBytes f.bytes

/-- The first sixteen digits, as log lines show them. -/
def render (f : Fingerprint) : String := Text.hexBytes (f.bytes.take 8)

/-- Whether `a` sorts strictly before `b`. -/
def lt (a b : Fingerprint) : Bool := a.bytes < b.bytes

end Fingerprint

end RecordLayer
