import RecordLayer.Record
import RecordLayer.Value.Codec

/-!
# Fields and records as documents
-/

namespace RecordLayer

/-- Field types as documents. -/
def FieldType.codec : Codec FieldType := .named FieldType.name [.text, .int, .bool, .float]

/-- Fields as documents. -/
def Field.codec : Codec Field where
  encode f := .ofMembers [("name", .ofString f.name), ("field_type", FieldType.codec.encode f.type),
    ("required", .bool f.required)]
  decode limit d := do
    let fields ← Codec.Fields.ofDocument ["name", "field_type", "required"] limit d
    return {
      name := ← fields.required "name" .text
      type := ← fields.required "field_type" FieldType.codec
      required := ← fields.required "required" .bool }

/-- Records as documents. -/
def Record.codec (format : Document.Format) : Codec Record where
  encode r := .ofMembers [("values", (Codec.list (Value.codec format)).encode r.values)]
  decode limit d := do
    let fields ← Codec.Fields.ofDocument ["values"] limit d
    return ⟨← fields.required "values" (.list (Value.codec format))⟩

end RecordLayer
