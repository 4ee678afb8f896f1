import RecordLayer.Value

/-!
# Records

A record is a row of values laid out by position. Its type says which field stands at which position
and what the field may hold; reading past the end of a short record gives the null.
-/

namespace RecordLayer

/-- What a field may hold. -/
inductive FieldType
  | text
  | int
  | bool
  | float
deriving DecidableEq, Inhabited

namespace FieldType

/-- The name of a field type. -/
def name : FieldType → String
  | text => "string"
  | int => "int"
  | bool => "bool"
  | float => "float"

/-- The kind of value that a field of this type stores. -/
def kind : FieldType → Value.Kind
  | text => .text
  | int => .int
  | bool => .bool
  | float => .double

/-- Whether a field of this type stores values of the kind. -/
def accepts (type : FieldType) (kind : Value.Kind) : Bool := type.kind = kind

end FieldType

/-- A field of a record type. -/
structure Field where
  name : String
  type : FieldType
  /-- Whether the null is refused. -/
  required : Bool
deriving DecidableEq, Inhabited

/-- Positional values. -/
structure Record where
  values : List Value
deriving DecidableEq, Hashable, Inhabited

namespace Record

/-- The value at a position, the null past the end. -/
def get (r : Record) (position : Nat) : Value := r.values.getD position .null

end Record

end RecordLayer
