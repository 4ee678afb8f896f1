import RecordLayer.Document.Codec
import RecordLayer.Value

/-!
# Values as documents

A value is an object that names its kind under `type` and holds its content under `value`; the null
has no content. Read back, the two may also stand in an array, the kind first and as a plain string.
-/

namespace RecordLayer.Value

/-- All kinds. -/
def Kind.all : List Kind := [.null, .bool, .int, .double, .text]

/-- The name of a kind as a document of its own. -/
def Kind.longName : Kind → String
  | .null => "Null"
  | .bool => "Bool"
  | .int => "Int"
  | .double => "Double"
  | .text => "String"

/-- Kinds as documents of their own. -/
def Kind.codec : Codec Kind := .named Kind.longName Kind.all

/-- The kind of a value inside its document. -/
def kindCodec : Codec Kind := .named Kind.name Kind.all

section Contents

variable (format : Document.Format)

/-- The content of a value as a document. -/
def contentDocument : Value → Option Document
  | null => none
  | bool b => some (Codec.bool.encode b)
  | int i => some ((Codec.int64 format).encode i)
  | double d => some ((Codec.double format).encode d)
  | text s => some (Codec.text.encode s)

/-- Reads the content of a value of a kind. -/
def ofContent (kind : Kind) (limit : Nat) (d : Document) : Option Value :=
  match kind with
  | .null =>
    match d with
    | .null => some null
    | _ => none
  | .bool => (Codec.bool.decode limit d).map bool
  | .int => ((Codec.int64 format).decode limit d).map int
  | .double => ((Codec.double format).decode limit d).map double
  | .text => (Codec.text.decode limit d).map text

/-- Writes a value. -/
def toDocument (v : Value) : Document :=
  .ofMembers (("type", kindCodec.encode v.kind) ::
    match v.contentDocument format with
    | none => []
    | some d => [("value", d)])

/-- Reads a value. -/
def ofDocument : Decoder Value
  | limit + 1, .array [.text kind, content] => do
    ofContent format (← Codec.byName? Kind.name Kind.all kind) limit content
  | limit + 1, .object members => do
    let fields ← Codec.Fields.ofDocument ["type", "value"] (limit + 1) (.object members)
    let kind ← fields.required "type" kindCodec
    match fields.get? "value" with
    | some content => ofContent format kind limit content
    | none => if kind = .null then some null else none
  | _, _ => none

/-- Values as documents. -/
def codec : Codec Value := ⟨toDocument format, ofDocument format⟩

end Contents

end RecordLayer.Value
