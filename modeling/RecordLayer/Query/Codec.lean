import RecordLayer.Filter.Codec
import RecordLayer.Query

/-!
# Queries as documents

Only the record type of a query has to be given.
-/

namespace RecordLayer.Query

variable (format : Document.Format)

/-- Writes a query. -/
def toDocument (q : Query) : Document :=
  .ofMembers [("record_type", .ofString q.recordType), ("filter", q.filter.toDocument format),
    ("limit", (Codec.option (.nat format)).encode q.limit),
    ("required_fields", (Codec.option (.list .text)).encode q.requiredFields)]

/-- Reads a query. -/
def ofDocument : Decoder Query := fun limit d => do
  let fields ← Codec.Fields.ofDocument ["record_type", "filter", "limit", "required_fields"] limit d
  return {
    recordType := ← fields.required "record_type" .text
    filter := ← fields.optional "filter" (Filter.codec format) .always
    limit := ← fields.optional "limit" (.option (.nat format)) none
    requiredFields := ← fields.optional "required_fields" (.option (.list .text)) none }

/-- Queries as documents. -/
def codec : Codec Query := ⟨toDocument format, ofDocument format⟩

end RecordLayer.Query
