import RecordLayer.Filter.Disjunctive
import RecordLayer.PlanningError

/-!
# Prepared filters

What planning starts from: the normal form of a query's filter, and next to it the disjunctive form
where expansion is small enough and gives a different filter.
-/

namespace RecordLayer.Filter

/-- Bounds on preparing a filter. -/
structure Limits where
  /-- Expansion into more conjunctions is not tried. -/
  maxTerms : Nat := 100
  /-- Deeper filters are refused. -/
  maxDepth : Nat := 20
deriving DecidableEq

/-- A filter ready for planning. -/
structure Prepared where
  filter : Filter
  /-- The disjunctive form, if it was built and differs from `filter`. -/
  expanded : Option Filter
  /-- How many conjunctions the expansion has. -/
  termCount : Nat
  /-- Whether the expansion was too large to build. -/
  skipped : Bool

/-- Refuses a filter that is nested deeper than the limit. -/
def checkDepth (f : Filter) (limit : Nat) : Except PlanningError Unit :=
  if limit < f.depth then .error (.filterTooDeep f.depth limit) else .ok ()

/-- Prepares a filter for planning within the limits. -/
def prepare (f : Filter) (limits : Limits) : Except PlanningError Prepared := do
  f.checkDepth limits.maxDepth
  let normal := f.normalize
  let expanded := normal.disjunctive? limits.maxTerms
  return {
    filter := normal
    expanded := expanded.filter (· != normal)
    termCount := normal.termCount
    skipped := expanded.isNone }

end RecordLayer.Filter
