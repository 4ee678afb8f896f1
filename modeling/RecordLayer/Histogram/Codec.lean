import RecordLayer.Histogram
import RecordLayer.Value.Codec

/-!
# Histograms as documents
-/

namespace RecordLayer

variable (format : Document.Format)

/-- Buckets as documents. -/
def Bucket.codec : Codec Bucket where
  encode b := .ofMembers [
    ("lower", b.lower.toDocument format), ("upper", b.upper.toDocument format),
    ("count", (Codec.uint64 format).encode b.count),
    ("distinct_count", (Codec.uint64 format).encode b.distinctCount)]
  decode limit d := do
    let fields ← Codec.Fields.ofDocument ["lower", "upper", "count", "distinct_count"] limit d
    return {
      lower := ← fields.required "lower" (Value.codec format)
      upper := ← fields.required "upper" (Value.codec format)
      count := ← fields.required "count" (.uint64 format)
      distinctCount := ← fields.required "distinct_count" (.uint64 format) }

/-- Histograms as documents. -/
def Histogram.codec : Codec Histogram where
  encode h := .ofMembers [("buckets", (Codec.list (Bucket.codec format)).encode h.buckets)]
  decode limit d := do
    let fields ← Codec.Fields.ofDocument ["buckets"] limit d
    return ⟨← fields.required "buckets" (.list (Bucket.codec format))⟩

end RecordLayer
