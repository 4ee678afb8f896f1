import RecordLayer.Filter.Prepared
import RecordLayer.Log
import RecordLayer.Plan.Cost

/-!
# Planner settings

The bounds and switches of planning. Each has a default.
-/

namespace RecordLayer

/-- Bounds and switches of planning. -/
structure PlannerSettings where
  /-- Expansion into more conjunctions is not tried. -/
  maxDnfTerms : Nat := 100
  /-- Deeper filters are refused. -/
  maxDepth : Nat := 20
  /-- How many candidates are weighed. -/
  maxCandidates : Nat := 20
  /-- Longer lists of values are not looked up one by one. -/
  maxInValues : Nat := 100
  /-- How many values are looked up at a time. -/
  inJoinBatch : Nat := 50
  /-- How many plans are remembered. -/
  cacheCapacity : Nat := 256
  /-- Whether reading a whole type is acceptable. -/
  allowFullScan : Bool := true
  /-- The name of the lowest severity that is logged. -/
  logLevel : String := "info"
  cost : CostConstants := {}
deriving Inhabited

namespace PlannerSettings

/-- The bounds that have to be positive, with their names. -/
def bounds (s : PlannerSettings) : List (String × Nat) := [
  ("max_dnf_terms", s.maxDnfTerms), ("max_depth", s.maxDepth),
  ("max_candidate_plans", s.maxCandidates), ("max_in_values", s.maxInValues),
  ("in_join_batch_size", s.inJoinBatch), ("plan_cache_capacity", s.cacheCapacity)]

/-- Refuses bounds of zero and unknown log levels. -/
def validate (s : PlannerSettings) : Except PlanningError Unit :=
  match s.bounds.find? (·.2 == 0) with
  | some (name, _) => .error (.invalidConfig (.zeroBound name))
  | none =>
    match Severity.ofName? s.logLevel with
    | none => .error (.invalidConfig (.unknownLogLevel s.logLevel))
    | some _ => .ok ()

/-- The bounds on preparing a filter. -/
def limits (s : PlannerSettings) : Filter.Limits := ⟨s.maxDnfTerms, s.maxDepth⟩

/-- The lowest severity that is logged. -/
def threshold (s : PlannerSettings) : Severity := (Severity.ofName? s.logLevel).getD .info

/-- The fields of the log entry for loaded settings. -/
def loadedFields (s : PlannerSettings) (path : String) : List (String × String) := [
  ("allow_full_scan", if s.allowFullScan then "true" else "false"), ("log_level", s.logLevel),
  ("max_dnf_terms", toString s.maxDnfTerms), ("max_in_values", toString s.maxInValues),
  ("path", path), ("plan_cache_capacity", toString s.cacheCapacity)]

end PlannerSettings

end RecordLayer
