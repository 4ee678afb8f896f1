import RecordLayer.Log.Event

/-!
# Monitoring

What planning and execution leave behind for operators: a log and counters that only grow.
-/

namespace RecordLayer

/-- Counters of planning and execution. -/
structure Metrics where
  plansSelected : Nat := 0
  plansCostBased : Nat := 0
  plansHeuristic : Nat := 0
  planningFailures : Nat := 0
  cacheHits : Nat := 0
  cacheMisses : Nat := 0
  cacheEvictions : Nat := 0
  cacheCollisions : Nat := 0
  estimationFallbacks : Nat := 0
  dnfSkipped : Nat := 0
  cursorsOpened : Nat := 0
  recordsEmitted : Nat := 0
  executionErrors : Nat := 0
  queriesCancelled : Nat := 0
deriving DecidableEq, Inhabited

namespace Metrics

/-- The counters with their names. -/
def toList (m : Metrics) : List (String × Nat) := [
  ("plans_selected", m.plansSelected), ("plans_cost_based", m.plansCostBased),
  ("plans_heuristic", m.plansHeuristic), ("planning_failures", m.planningFailures),
  ("cache_hits", m.cacheHits), ("cache_misses", m.cacheMisses),
  ("cache_evictions", m.cacheEvictions), ("cache_collisions", m.cacheCollisions),
  ("estimation_fallbacks", m.estimationFallbacks), ("dnf_skipped", m.dnfSkipped),
  ("cursors_opened", m.cursorsOpened), ("records_emitted", m.recordsEmitted),
  ("execution_errors", m.executionErrors), ("queries_cancelled", m.queriesCancelled)]

/-- The counters as a JSON object. -/
def render (m : Metrics) : String :=
  "\x7b" ++ ",".intercalate (m.toList.map fun (name, n) => "\"" ++ name ++ "\":" ++ toString n) ++
    "\x7d"

end Metrics

/-- A log and counters. -/
structure Monitor where
  log : Log := {}
  metrics : Metrics := {}
  /-- The time that finished scopes report, in microseconds. -/
  elapsed : Nat := 0
deriving Inhabited

namespace Monitor

/-- Adds an entry to the log. -/
def add (m : Monitor) (e : LogEntry) : Monitor := { m with log := m.log.add e }

/-- Reports an event. -/
def event (m : Monitor) (e : Event) (fields : List (String × String)) : Monitor :=
  m.add (e.entry fields)

/-- Changes the counters. -/
def count (m : Monitor) (f : Metrics → Metrics) : Monitor := { m with metrics := f m.metrics }

end Monitor

end RecordLayer
