import RecordLayer.Document.Format

/-!
# Codecs

A codec says how the values of a type are written as documents and read back. Reading a value enters
the arrays and objects of its document, and at most a given number of them one inside the other;
members that it skips may be nested as deeply as they like.

A structure is an object whose members may come in any order and be mixed with others, or an array
of its fields in order. A name is a string, or an object with the name as its only member and the
null as its value.
-/

namespace RecordLayer

/-- Reads a value from a document, entering at most so many nested arrays and objects. -/
abbrev Decoder (α : Type) := Nat → Document → Option α

/-- How the values of a type are written and read. -/
structure Codec (α : Type) where
  encode : α → Document
  decode : Decoder α

namespace Document.Format

/-- The value that a text holds. -/
def parse {α : Type} (format : Format) (c : Codec α) (text : String) : Option α :=
  (format.read text).bind (c.decode format.nesting)

/-- A value as text. -/
def render {α : Type} (format : Format) (c : Codec α) (a : α) : String :=
  format.write (c.encode a)

end Document.Format

namespace Codec

/-! ## Single values -/

/-- Strings. -/
def text : Codec String := ⟨.ofString, fun _ d => d.content?⟩

/-- Truth values. -/
def bool : Codec Bool where
  encode := .bool
  decode
    | _, .bool b => some b
    | _, _ => none

section Numbers

variable (format : Document.Format)

/-- Unsigned 64-bit integers. -/
def uint64 : Codec UInt64 where
  encode n := .number (format.ofInt n.toNat)
  decode
    | _, .number n => do
      let i ← format.int? n
      if 0 ≤ i ∧ i < UInt64.size then some i.toNat.toUInt64 else none
    | _, _ => none

/-- Natural numbers that fit an unsigned 64-bit integer. -/
def nat : Codec Nat where
  encode n := .number (format.ofInt n)
  decode limit d := ((uint64 format).decode limit d).map UInt64.toNat

/-- Signed 64-bit integers. -/
def int64 : Codec Int64 where
  encode i := .number (format.ofInt i.toInt)
  decode
    | _, .number n => do
      let i ← format.int? n
      if Int64.minValue.toInt ≤ i ∧ i ≤ Int64.maxValue.toInt then some (.ofInt i) else none
    | _, _ => none

/-- Doubles. -/
def double : Codec Double where
  encode d :=
    match format.ofDouble? d with
    | some n => .number n
    | none => .null
  decode
    | _, .number n => format.double? n
    | _, _ => none

/-- Machine floats. -/
def float : Codec Float where
  encode x := (double format).encode (.ofFloat x)
  decode limit d := ((double format).decode limit d).map Double.toFloat

end Numbers

/-- The first of the listed values that has a name. -/
def byName? {α : Type} (name : α → String) (all : List α) (s : Content) : Option α :=
  all.find? fun a => some (name a) == s

/-- One of the listed values by its name. -/
def named {α : Type} (name : α → String) (all : List α) : Codec α where
  encode a := .ofString (name a)
  decode
    | _, .text s => byName? name all s
    | _ + 1, .object [(s, .null)] => byName? name all s
    | _, _ => none

/-! ## Lists and options -/

/-- Lists of values. -/
def list {α : Type} (c : Codec α) : Codec (List α) where
  encode as := .array (as.map c.encode)
  decode
    | limit + 1, .array items => items.mapM (c.decode limit)
    | _, _ => none

/-- A value or the null. -/
def option {α : Type} (c : Codec α) : Codec (Option α) where
  encode
    | some a => c.encode a
    | none => .null
  decode
    | _, .null => some none
    | limit, d => (c.decode limit d).map some

/-! ## Structures -/

/-- The fields of a structure as found in a document, by name. -/
structure Fields where
  /-- How deep the value of a field may be nested. -/
  limit : Nat
  found : List (String × Document)

namespace Fields

/-- The members of known names, each at most once. -/
def ofMembers (names : List String) :
    List (Content × Document) → Option (List (String × Document))
  | [] => some []
  | (none, _) :: _ => none
  | (some name, d) :: rest => do
    let others ← ofMembers names rest
    if !names.contains name then return others
    else if others.any (·.1 == name) then none
    else return (name, d) :: others

/-- The fields of a structure with the given names. -/
def ofDocument (names : List String) : Nat → Document → Option Fields
  | limit + 1, .array items =>
    if items.length ≤ names.length then some ⟨limit, names.zip items⟩ else none
  | limit + 1, .object members => (ofMembers names members).map (⟨limit, ·⟩)
  | _, _ => none

/-- The document of a field. -/
def get? (f : Fields) (name : String) : Option Document :=
  (f.found.find? (·.1 == name)).map (·.2)

/-- A field that has to be there. -/
def required {α : Type} (f : Fields) (name : String) (c : Codec α) : Option α :=
  (f.get? name).bind (c.decode f.limit)

/-- A field that may be left out. -/
def optional {α : Type} (f : Fields) (name : String) (c : Codec α) (default : α) : Option α :=
  match f.get? name with
  | none => some default
  | some d => c.decode f.limit d

end Fields

end Codec

end RecordLayer
