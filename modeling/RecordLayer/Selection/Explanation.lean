import RecordLayer.Selection

/-!
# Explanations

A report on how a query was planned: the plan with its cost and how it was chosen, or why the query
was refused.
-/

namespace RecordLayer

/-- A report on planning a query. -/
structure Explanation where
  recordType : String
  /-- `-` for a query that was refused before it had a fingerprint. -/
  fingerprint : String
  outcome : Except PlanningError Selection

namespace Explanation

/-- The lines of a text, without the line ends. -/
def linesOf (text : String) : List String :=
  (text.splitOn "\n").dropLast.map fun line =>
    if line.endsWith "\r" then (line.dropEnd 1).toString else line

/-- A float with two decimals. -/
def amount (x : Float) : String := (Double.ofFloat x).writeFixed 2

/-- The report as text. -/
def render (e : Explanation) : String :=
  let lines := match e.outcome with
    | .error err => ["Status: REJECTED", "Error Code: " ++ err.code, "Reason: " ++ err.message]
    | .ok s => [
        "Status: ACCEPTED",
        "Selection: " ++ s.mode.name,
        "Candidates: " ++ toString s.candidates,
        "Cache Hit: " ++ (if s.cacheHit then "true" else "false"),
        "Estimated Rows: " ++ toString s.cost.rows.toInt,
        "Cost: io=" ++ amount s.cost.io ++ " cpu=" ++ amount s.cost.cpu ++ " total=" ++
          amount s.cost.total,
        "Plan:"] ++ (linesOf s.plan.explain).map ("  " ++ ·)
  String.join ((["=== EXPLAIN PLAN ===", "Record Type: " ++ e.recordType,
    "Fingerprint: " ++ e.fingerprint] ++ lines).map (· ++ "\n"))

end Explanation

/-- Plans a query and reports on it. -/
def Planner.explain (p : Planner) (source : StatisticsSource) (q : Query) (s : PlannerState) :
    Explanation × PlannerState :=
  let (outcome, s) := p.select source q s
  let fingerprint := match p.fingerprint q with
    | .ok f => f.toHex
    | .error _ => "-"
  (⟨q.recordType, fingerprint, outcome⟩, s)

end RecordLayer
