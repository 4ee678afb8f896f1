/-!
# Planning errors

Why a query or a planner configuration is refused. Each cause has a stable code and a message; some
name the field that they are about.
-/

namespace RecordLayer

/-- Why a configuration is refused. -/
inductive ConfigFault
  | zeroBound (name : String)
  | unknownLogLevel (level : String)
  | malformed
  | unreadable
deriving DecidableEq

namespace ConfigFault

/-- The fault in words. -/
def reason : ConfigFault → String
  | zeroBound name => s!"{name} must be at least 1"
  | unknownLogLevel level => s!"Unknown log level '{level}'"
  | malformed => "Invalid JSON"
  | unreadable => "Failed to read"

end ConfigFault

/-- A refused query or configuration. -/
inductive PlanningError
  | unknownRecordType (name : String)
  | unknownField (recordType field : String)
  | filterTooDeep (depth limit : Nat)
  | noMatchingIndex (recordType : String)
  | missingRankIndex (field : String)
  | zeroLimit
  | invalidConfig (fault : ConfigFault)
deriving DecidableEq

namespace PlanningError

/-- The stable code of a cause. -/
def code : PlanningError → String
  | unknownRecordType _ => "REC_PLAN_UNKNOWN_RECORD_TYPE"
  | unknownField .. => "REC_PLAN_UNKNOWN_FIELD"
  | filterTooDeep .. => "REC_PLAN_FILTER_TOO_DEEP"
  | noMatchingIndex _ => "REC_PLAN_NO_MATCHING_INDEX"
  | missingRankIndex _ => "REC_PLAN_MISSING_RANK_INDEX"
  | zeroLimit => "REC_PLAN_INVALID_QUERY"
  | invalidConfig _ => "REC_PLAN_INVALID_CONFIG"

/-- All codes. -/
def codes : List String := [
  code (unknownRecordType ""), code (unknownField "" ""), code (filterTooDeep 0 0),
  code (noMatchingIndex ""), code (missingRankIndex ""), code zeroLimit,
  code (invalidConfig .malformed)]

/-- Every planning error rejects the query. -/
def severity : String := "REJECT"

/-- The error in words. -/
def message : PlanningError → String
  | unknownRecordType name => s!"Record type '{name}' is not registered"
  | unknownField recordType field => s!"Record type '{recordType}' has no field '{field}'"
  | filterTooDeep depth limit => s!"Filter depth {depth} exceeds maximum {limit}"
  | noMatchingIndex recordType =>
    s!"No index matches the filter on '{recordType}' and full scans are disallowed"
  | missingRankIndex field => s!"Rank predicate on '{field}' needs a rank index"
  | zeroLimit => "limit must be at least 1"
  | invalidConfig fault => fault.reason

/-- The field that the error is about. -/
def field? : PlanningError → Option String
  | unknownField _ field => some field
  | missingRankIndex field => some field
  | _ => none

/-- Severity, code and message in one line. -/
def render (e : PlanningError) : String := s!"[{severity}] {e.code}: {e.message}"

end PlanningError

end RecordLayer
