import RecordLayer.Double.Notation
import RecordLayer.Text.Literal
import RecordLayer.Value

/-!
# Values as text

`Value.render` is for readers. `Value.canonical` never writes two different values alike: a double
carries its bits, which tell the two zeros and the NaN payloads apart.
-/

namespace RecordLayer.Value

/-- A value for readers. -/
def render : Value → String
  | null => "null"
  | bool b => if b then "true" else "false"
  | int i => toString i.toInt
  | double d => d.write Double.readable
  | text s => Text.literal s

/-- A value's own text, different for different values. -/
def canonical : Value → String
  | null => "null"
  | bool b => if b then "true" else "false"
  | int i => toString i.toInt
  | double d => d.write Double.plain ++ "d" ++ String.ofList (Text.hexFixed 16 d.bits.toNat)
  | text s => Text.literal s

/-- A value with the name of its kind, as a violated key is reported. -/
def renderTagged : Value → String
  | null => "Null"
  | bool b => "Bool(" ++ (if b then "true" else "false") ++ ")"
  | int i => "Int(" ++ toString i.toInt ++ ")"
  | double d => "Double(" ++ d.write Double.readable ++ ")"
  | text s => "String(" ++ Text.literal s ++ ")"

/-- A list of values with their kinds, between square brackets. -/
def renderTaggedList (vs : List Value) : String :=
  "[" ++ ", ".intercalate (vs.map renderTagged) ++ "]"

end RecordLayer.Value
