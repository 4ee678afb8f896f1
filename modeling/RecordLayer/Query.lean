import RecordLayer.Catalog
import RecordLayer.Filter.Prepared
import RecordLayer.Fingerprint

/-!
# Queries

A query asks for the records of one type that satisfy a filter, all of them or a limited number, as
whole records or for some fields only. Its canonical text is the same for queries that differ only
in the order of the filter's combined parts, of listed values and of required fields.
-/

namespace RecordLayer

/-- A query over one record type. -/
structure Query where
  recordType : String
  filter : Filter := .always
  limit : Option Nat := none
  /-- The fields that the caller reads; `none` asks for whole records. -/
  requiredFields : Option (List String) := none
deriving Inhabited, DecidableEq

namespace Query

/-- The text that identifies a query. -/
def canonical (q : Query) : String :=
  let limit := match q.limit with
    | some n => toString n
    | none => "none"
  let fields := match q.requiredFields with
    | some fields => Text.literalList (Text.sortDistinct fields)
    | none => "*"
  "type=" ++ Text.literal q.recordType ++ ";filter=" ++ q.filter.canonical ++ ";limit=" ++ limit ++
    ";fields=" ++ fields

/-- The fingerprint of the canonical text. -/
def fingerprint (q : Query) : Fingerprint := .ofText q.canonical

/-- Checks a query against the catalog and finds its record type. -/
def validate (q : Query) (catalog : Catalog) : Except PlanningError RecordType :=
  match catalog.recordType? q.recordType with
  | none => .error (.unknownRecordType q.recordType)
  | some t =>
    if q.limit = some 0 then .error .zeroLimit
    else
      match (q.filter.fields ++ q.requiredFields.getD []).find? fun f => !t.hasField f with
      | some f => .error (.unknownField q.recordType f)
      | none =>
        match q.filter.rankFields.find? fun f => (catalog.rankIndex? t.name f).isNone with
        | some f => .error (.missingRankIndex f)
        | none => .ok t

end Query

end RecordLayer
