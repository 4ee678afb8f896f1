import RecordLayer.Filter
import RecordLayer.Value.Codec

/-!
# Filters as documents

A filter is an object with one member, whose name says what kind of filter it is.
-/

namespace RecordLayer

namespace Comparator

/-- The name of a comparator. -/
def longName : Comparator → String
  | eq => "Equals"
  | ne => "NotEquals"
  | lt => "LessThan"
  | le => "LessThanOrEquals"
  | gt => "GreaterThan"
  | ge => "GreaterThanOrEquals"

/-- Comparators as documents. -/
def codec : Codec Comparator := .named longName all

end Comparator

namespace Filter

variable (format : Document.Format)

mutual

/-- Writes a filter. -/
def toDocument : Filter → Document
  | .compare field op value => .ofMembers [("comparison", .ofMembers [("field", .ofString field),
      ("op", Comparator.codec.encode op), ("value", value.toDocument format)])]
  | .all children => .ofMembers [("and", .array (toDocuments children))]
  | .any children => .ofMembers [("or", .array (toDocuments children))]
  | .not child => .ofMembers [("not", child.toDocument)]
  | .oneOf field values => .ofMembers [("in_list", .ofMembers [("field", .ofString field),
      ("values", (Codec.list (Value.codec format)).encode values)])]
  | .rank field op n => .ofMembers [("rank", .ofMembers [("field", .ofString field),
      ("op", Comparator.codec.encode op), ("rank", (Codec.uint64 format).encode n)])]

/-- Writes each filter of a list. -/
def toDocuments : List Filter → List Document
  | [] => []
  | f :: rest => f.toDocument :: toDocuments rest

end

/-- Reads a comparison with a value. -/
def readCompare (limit : Nat) (d : Document) : Option Filter := do
  let fields ← Codec.Fields.ofDocument ["field", "op", "value"] limit d
  return .compare (← fields.required "field" .text) (← fields.required "op" Comparator.codec)
    (← fields.required "value" (Value.codec format))

/-- Reads a membership in a list. -/
def readOneOf (limit : Nat) (d : Document) : Option Filter := do
  let fields ← Codec.Fields.ofDocument ["field", "values"] limit d
  return .oneOf (← fields.required "field" .text)
    (← fields.required "values" (.list (Value.codec format)))

/-- Reads a comparison of a rank. -/
def readRank (limit : Nat) (d : Document) : Option Filter := do
  let fields ← Codec.Fields.ofDocument ["field", "op", "rank"] limit d
  return .rank (← fields.required "field" .text) (← fields.required "op" Comparator.codec)
    (← fields.required "rank" (.uint64 format))

/-- Reads a filter. -/
def ofDocument : Decoder Filter
  | limit + 1, .object [(some "comparison", d)] => readCompare format limit d
  | limit + 1, .object [(some "in_list", d)] => readOneOf format limit d
  | limit + 1, .object [(some "rank", d)] => readRank format limit d
  | limit + 1, .object [(some "not", d)] => (ofDocument limit d).map .not
  | limit + 2, .object [(some "and", .array items)] => (items.mapM (ofDocument limit)).map .all
  | limit + 2, .object [(some "or", .array items)] => (items.mapM (ofDocument limit)).map .any
  | _, _ => none

/-- Filters as documents. -/
def codec : Codec Filter := ⟨toDocument format, ofDocument format⟩

end Filter

end RecordLayer
