/-!
# Schema errors

Why a record type, an index or a record is refused.
-/

namespace RecordLayer

/-- What is wrong with an index definition. -/
inductive IndexFault
  | noKeyFields
  | rankKeyNotSingle
deriving DecidableEq

namespace IndexFault

/-- The fault in words. -/
def reason : IndexFault → String
  | noKeyFields => "no key fields"
  | rankKeyNotSingle => "rank indexes have exactly one key field"

end IndexFault

/-- A refused record type, index or record. -/
inductive SchemaError
  | duplicateRecordType (name : String)
  | unknownRecordType (name : String)
  | unknownField (recordType field : String)
  | duplicateField (name : String)
  | missingPrimaryKey (recordType : String)
  | duplicateIndex (name : String)
  | invalidIndex (index : String) (fault : IndexFault)
  | typeMismatch (field expected actual : String)
  | arityMismatch (recordType : String) (expected actual : Nat)
  | missingField (name : String)
  | missingRankIndex (recordType field : String)
deriving DecidableEq

namespace SchemaError

/-- The error in words. -/
def message : SchemaError → String
  | duplicateRecordType name => s!"Record type '{name}' already registered"
  | unknownRecordType name => s!"Unknown record type '{name}'"
  | unknownField recordType field => s!"Record type '{recordType}' has no field '{field}'"
  | duplicateField name => s!"Field '{name}' declared more than once"
  | missingPrimaryKey recordType => s!"Record type '{recordType}' has no primary key field"
  | duplicateIndex name => s!"Index '{name}' already registered"
  | invalidIndex index fault => s!"Invalid index '{index}': {fault.reason}"
  | typeMismatch field expected actual => s!"Field '{field}' expects {expected}, got {actual}"
  | arityMismatch recordType expected actual =>
    s!"Record type '{recordType}' declares {expected} fields, record has {actual}"
  | missingField name => s!"Required field '{name}' is missing"
  | missingRankIndex recordType field =>
    s!"Record type '{recordType}' has no rank index on '{field}'"

end SchemaError

end RecordLayer
