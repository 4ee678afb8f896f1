import RecordLayer.Record.Error

/-!
# Store errors

Why a read or a write of the store fails.
-/

namespace RecordLayer

/-- A failed operation of the store. -/
inductive StoreError
  | io (reason : String)
  | conflict (recordType : String)
  | unknownRecordType (name : String)
  | unknownIndex (name : String)
  | notRankIndex (name : String)
  | uniqueViolation (index key : String)
  | transactionClosed
  | schema (error : SchemaError)
deriving DecidableEq

namespace StoreError

/-- The error in words. -/
def message : StoreError → String
  | io reason => s!"storage I/O failure: {reason}"
  | conflict recordType =>
    s!"transaction conflict on '{recordType}': committed by another transaction since begin"
  | unknownRecordType name => s!"unknown record type '{name}'"
  | unknownIndex name => s!"unknown index '{name}'"
  | notRankIndex name => s!"index '{name}' does not maintain ranks"
  | uniqueViolation index key => s!"unique index '{index}' already holds key {key}"
  | transactionClosed => "transaction already closed"
  | schema error => error.message

/-- Whether another transaction was faster. -/
def isConflict : StoreError → Bool
  | conflict _ => true
  | _ => false

end StoreError

end RecordLayer
