import RecordLayer.Log

/-!
# Events

The events that planning and execution report, each with its name and severity, and the scopes that
report the beginning and the end of a longer operation.
-/

namespace RecordLayer

/-- Something worth a log entry. -/
inductive Event
  | planSelected
  | dnfSkipped
  | inListTooLong
  | statisticsRejected
  | planCacheHit
  | planCacheMiss
  | planCacheEvicted
  | planCacheCollision
  | cursorOpened
  | cursorExhausted
  | cursorAborted
  | queryCancelled
  | configLoaded
deriving DecidableEq

namespace Event

/-- All events. -/
def all : List Event := [
  planSelected, dnfSkipped, inListTooLong, statisticsRejected, planCacheHit, planCacheMiss,
  planCacheEvicted, planCacheCollision, cursorOpened, cursorExhausted, cursorAborted,
  queryCancelled, configLoaded]

/-- The name of an event. -/
def name : Event → String
  | planSelected => "PLAN_SELECTED"
  | dnfSkipped => "DNF_SKIPPED"
  | inListTooLong => "IN_LIST_TOO_LONG"
  | statisticsRejected => "STATISTICS_REJECTED"
  | planCacheHit => "PLAN_CACHE_HIT"
  | planCacheMiss => "PLAN_CACHE_MISS"
  | planCacheEvicted => "PLAN_CACHE_EVICTED"
  | planCacheCollision => "PLAN_CACHE_COLLISION"
  | cursorOpened => "CURSOR_OPENED"
  | cursorExhausted => "CURSOR_EXHAUSTED"
  | cursorAborted => "CURSOR_ABORTED"
  | queryCancelled => "QUERY_CANCELLED"
  | configLoaded => "CONFIG_LOADED"

/-- The severity of an event. -/
def severity : Event → Severity
  | planCacheHit | planCacheMiss | cursorOpened | cursorExhausted => .trace
  | planSelected | dnfSkipped | inListTooLong | planCacheEvicted | configLoaded => .info
  | statisticsRejected | planCacheCollision | queryCancelled => .warn
  | cursorAborted => .error

/-- The log entry of an event. -/
def entry (e : Event) (fields : List (String × String)) : LogEntry := ⟨e.severity, e.name, fields⟩

end Event

/-- An operation that reports its beginning and its end, with fields that stand in both entries. -/
structure Scope where
  name : String
  fields : List (String × String) := []

namespace Scope

/-- The entry for the beginning. -/
def begin (s : Scope) : LogEntry := ⟨.trace, s.name ++ "_BEGIN", s.fields⟩

/-- The entry for an end, with more fields and the time taken. -/
def finish (s : Scope) (severity : Severity) (ending : String) (extra : List (String × String))
    (elapsed : Nat) : LogEntry :=
  ⟨severity, s.name ++ ending, s.fields ++ extra ++ [("elapsed_us", toString elapsed)]⟩

/-- The entry for success. -/
def complete (s : Scope) (extra : List (String × String)) (elapsed : Nat) : LogEntry :=
  s.finish .trace "_COMPLETE" extra elapsed

/-- The entry for a failure. -/
def fail (s : Scope) (extra : List (String × String)) (elapsed : Nat) : LogEntry :=
  s.finish .warn "_FAILED" extra elapsed

/-- The entry for a scope that was left without an end. -/
def abandon (s : Scope) : LogEntry :=
  ⟨.warn, s.name ++ "_INCOMPLETE", [("reason", "scope dropped without completion")]⟩

end Scope

end RecordLayer
