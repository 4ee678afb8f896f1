import RecordLayer.Store.Error

/-!
# Execution errors

Why a plan cannot be executed, or why its execution ends early. Errors are never swallowed and a
failed cursor never goes on.
-/

namespace RecordLayer

/-- Why a plan does not fit what it is executed on. -/
inductive PlanFault
  | unknownRecordType (name : String)
  | otherRecordType (scanned expected : String)
  | otherIndexType (index recordType expected : String)
  | notPlannable (index : String)
  | notLedBy (index field : String)
  | emptyIntersection
  | zeroBatch
  | schema (error : SchemaError)
deriving DecidableEq

namespace PlanFault

/-- The fault in words. -/
def message : PlanFault → String
  | unknownRecordType name => s!"Unknown record type '{name}'"
  | otherRecordType scanned expected =>
    s!"Plan scans '{scanned}' but the context reads '{expected}'"
  | otherIndexType index recordType expected =>
    s!"Index '{index}' belongs to '{recordType}', not '{expected}'"
  | notPlannable index => s!"Index '{index}' cannot be scanned"
  | notLedBy index field => s!"Index '{index}' is not led by '{field}'"
  | emptyIntersection => "Intersection without children"
  | zeroBatch => "IN-join batch size must be at least 1"
  | schema error => error.message

end PlanFault

/-- A failed execution. -/
inductive ExecutionError
  | store (error : StoreError)
  | cancelled
  /-- A pull from a cursor that failed before. -/
  | aborted (cursor : String)
  | missingRankIndex (field : String)
  | invalidPlan (fault : PlanFault)
deriving DecidableEq

namespace ExecutionError

/-- The stable code of a cause. -/
def code : ExecutionError → String
  | store e => if e.isConflict then "REC_EXEC_CONFLICT" else "REC_EXEC_STORE_IO"
  | cancelled => "REC_EXEC_CANCELLED"
  | aborted _ => "REC_EXEC_CURSOR_ABORTED"
  | missingRankIndex _ => "REC_EXEC_MISSING_RANK_INDEX"
  | invalidPlan _ => "REC_EXEC_INVALID_PLAN"

/-- The severity of a cause: only a cancellation is wanted. -/
def severity : ExecutionError → String
  | cancelled => "WARN"
  | _ => "ERROR"

/-- One error of each code. -/
def samples : List ExecutionError := [
  store (.io ""), store (.conflict ""), cancelled, aborted "", missingRankIndex "",
  invalidPlan .emptyIntersection]

/-- The error in words. -/
def message : ExecutionError → String
  | store e => e.message
  | cancelled => "Query cancelled"
  | aborted cursor => s!"{cursor} cursor failed earlier and cannot continue"
  | missingRankIndex field => s!"No rank index serves field '{field}'"
  | invalidPlan fault => fault.message

/-- The store error behind an error. -/
def storeError? : ExecutionError → Option StoreError
  | store e => some e
  | _ => none

/-- Whether the caller asked for the end. -/
def isCancelled : ExecutionError → Bool
  | cancelled => true
  | _ => false

/-- Whether another transaction was faster. -/
def isConflict : ExecutionError → Bool
  | store e => e.isConflict
  | _ => false

/-- Severity, code and message in one line. -/
def render (e : ExecutionError) : String := s!"[{e.severity}] {e.code}: {e.message}"

end ExecutionError

end RecordLayer
