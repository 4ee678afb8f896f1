import RecordLayer.Document.Codec
import RecordLayer.Index

/-!
# Indexes as documents
-/

namespace RecordLayer

/-- Index kinds as documents. -/
def IndexKind.codec : Codec IndexKind := .named IndexKind.name [.value, .rank, .other]

/-- Indexes as documents; the covering fields may be left out. -/
def Index.codec : Codec Index where
  encode i := .ofMembers [("name", .ofString i.name), ("record_type", .ofString i.recordType),
    ("key_fields", (Codec.list .text).encode i.keyFields), ("unique", .bool i.unique),
    ("kind", IndexKind.codec.encode i.kind),
    ("covering_fields", (Codec.list .text).encode i.coveringFields)]
  decode limit d := do
    let fields ← Codec.Fields.ofDocument
      ["name", "record_type", "key_fields", "unique", "kind", "covering_fields"] limit d
    return {
      name := ← fields.required "name" .text
      recordType := ← fields.required "record_type" .text
      keyFields := ← fields.required "key_fields" (.list .text)
      unique := ← fields.required "unique" .bool
      kind := ← fields.required "kind" IndexKind.codec
      coveringFields := ← fields.optional "covering_fields" (.list .text) [] }

end RecordLayer
