import RecordLayer.Candidates
import RecordLayer.Monitor
import RecordLayer.PlanCache

/-!
# Plan selection

From a query to a plan. A query is checked and looked up in the plan cache; failing that its filter
is prepared, the statistics are fetched, and the best candidate is taken: the cheapest one if there
are table statistics, else the one that comes first in the order of kinds. The outcome of every step
is reported to the monitor.
-/

namespace RecordLayer

/-- How a plan was chosen. -/
inductive SelectionMode
  | costBased
  | heuristic
  | cached
deriving DecidableEq

namespace SelectionMode

/-- All modes. -/
def all : List SelectionMode := [costBased, heuristic, cached]

/-- The name of a mode. -/
def name : SelectionMode → String
  | costBased => "cost_based"
  | heuristic => "heuristic"
  | cached => "cached"

end SelectionMode

/-- A chosen plan. -/
structure Selection where
  plan : Plan
  cost : QueryCost
  fingerprint : Fingerprint
  cacheHit : Bool
  /-- How many candidates were weighed. -/
  candidates : Nat
  mode : SelectionMode

/-- The fixed parts of planning. -/
structure Planner where
  catalog : Catalog
  settings : PlannerSettings
  /-- The fingerprint of a canonical text. -/
  digest : String → Fingerprint := Fingerprint.ofText

/-- What planning changes. -/
structure PlannerState where
  cache : PlanCache
  monitor : Monitor := {}
deriving Inhabited

namespace PlannerState

/-- Reports an event. -/
def event (s : PlannerState) (e : Event) (fields : List (String × String)) : PlannerState :=
  { s with monitor := s.monitor.event e fields }

/-- Changes the counters. -/
def count (s : PlannerState) (f : Metrics → Metrics) : PlannerState :=
  { s with monitor := s.monitor.count f }

end PlannerState

namespace Planner

/-- A planner with a cache of its own, if the settings are valid. -/
def create (catalog : Catalog) (settings : PlannerSettings) :
    Except PlanningError (Planner × PlannerState) := do
  settings.validate
  return ({ catalog, settings }, { cache := .ofCapacity settings.cacheCapacity })

/-- Reports a chosen plan. -/
def reportSelection (s : PlannerState) (q : Query) (chosen : Selection) : PlannerState :=
  s.event .planSelected [
    ("cache_hit", if chosen.cacheHit then "true" else "false"),
    ("candidates", toString chosen.candidates),
    ("estimated_rows", toString chosen.cost.rows.toInt),
    ("fingerprint", chosen.fingerprint.render),
    ("mode", chosen.mode.name),
    ("plan_type", chosen.plan.typeName),
    ("record_type", q.recordType),
    ("total_cost", (Double.ofFloat chosen.cost.total).writeFixed 2)]

/-- Reports a disjunctive form that was too large to build. -/
def reportPrepared (p : Planner) (s : PlannerState) (r : Filter.Prepared) : PlannerState :=
  if r.skipped then
    (s.count fun m => { m with dnfSkipped := m.dnfSkipped + 1 }).event .dnfSkipped [
      ("estimated_terms", toString r.termCount),
      ("max_dnf_terms", toString p.settings.maxDnfTerms)]
  else s

/-- Reports statistics that were left out. -/
def reportRejected (s : PlannerState) (rejected : List StatisticsError) : PlannerState :=
  rejected.foldl (fun s e =>
    (s.count fun m => { m with estimationFallbacks := m.estimationFallbacks + 1 }).event
      .statisticsRejected [("reason", e.message), ("subject", e.subject)]) s

/-- Reports lists of values that were too long. -/
def reportOverlong (p : Planner) (s : PlannerState) (lists : List (String × Nat)) : PlannerState :=
  lists.foldl (fun s (field, count) =>
    s.event .inListTooLong [("field", field), ("values", toString count),
      ("max_in_values", toString p.settings.maxInValues)]) s

/-- The statistics and settings for a record type. -/
def context (p : Planner) (source : StatisticsSource) (t : RecordType) : PlanningContext where
  catalog := p.catalog
  recordType := t
  snapshot := .gather source t (p.catalog.plannableIndexes t.name)
  settings := p.settings

/-- The best of the candidates and how it was chosen. -/
def choose? (c : PlanningContext) (candidates : List Plan) : Option Plan × SelectionMode :=
  match c.snapshot.table with
  | some _ => (Plan.best? (Plan.compareByCost c.costModel) candidates, .costBased)
  | none => (Plan.best? Plan.compareHeuristically candidates, .heuristic)

/-- Plans a query that the cache does not know. -/
def planAfresh (p : Planner) (source : StatisticsSource) (t : RecordType) (q : Query)
    (fingerprint : Fingerprint) (canonical : String) (s : PlannerState) :
    Except PlanningError Selection × PlannerState :=
  match q.filter.prepare p.settings.limits with
  | .error e => (.error e, s)
  | .ok prepared =>
    let s := p.reportPrepared s prepared
    let c := p.context source t
    let s := reportRejected s c.snapshot.rejected
    let (candidates, overlong) := c.generate prepared q
    let s := p.reportOverlong s overlong
    match choose? c candidates with
    | (none, _) => (.error (.noMatchingIndex t.name), s)
    | (some plan, mode) =>
      let cost := c.costModel.estimate plan
      let (evicted, cache) := s.cache.insert fingerprint canonical plan cost
      let s := { s with cache }
      let s := match evicted with
        | some f =>
          (s.count fun m => { m with cacheEvictions := m.cacheEvictions + 1 }).event
            .planCacheEvicted [("fingerprint", f.render)]
        | none => s
      let chosen : Selection :=
        { plan, cost, fingerprint, cacheHit := false, candidates := candidates.length, mode }
      let s := s.count fun m =>
        let m := { m with plansSelected := m.plansSelected + 1 }
        if mode = .costBased then { m with plansCostBased := m.plansCostBased + 1 }
        else { m with plansHeuristic := m.plansHeuristic + 1 }
      (.ok chosen, reportSelection s q chosen)

/-- Plans a query under its fingerprint, from the cache if it can be. -/
def planQuery (p : Planner) (source : StatisticsSource) (q : Query) (fingerprint : Fingerprint)
    (s : PlannerState) : Except PlanningError Selection × PlannerState :=
  match q.validate p.catalog with
  | .error e => (.error e, s)
  | .ok t =>
    let canonical := q.canonical
    let shown := ("fingerprint", fingerprint.render)
    match s.cache.lookup fingerprint canonical with
    | (.hit e, cache) =>
      let s := { s with cache }.count fun m => { m with cacheHits := m.cacheHits + 1 }
      let s := s.event .planCacheHit [shown]
      let chosen : Selection :=
        { plan := e.plan, cost := e.cost, fingerprint, cacheHit := true, candidates := 0,
          mode := .cached }
      (.ok chosen, reportSelection s q chosen)
    | (.miss, cache) =>
      let s := { s with cache }.count fun m => { m with cacheMisses := m.cacheMisses + 1 }
      p.planAfresh source t q fingerprint canonical (s.event .planCacheMiss [shown])
    | (.collision f, cache) =>
      let s := { s with cache }.count fun m =>
        { m with cacheCollisions := m.cacheCollisions + 1, cacheMisses := m.cacheMisses + 1 }
      p.planAfresh source t q fingerprint canonical
        (s.event .planCacheCollision [shown, ("reason", CacheLookup.collisionMessage f)])

/-- The fingerprint of a query, unless its filter is too deep to be looked at. -/
def fingerprint (p : Planner) (q : Query) : Except PlanningError Fingerprint := do
  q.filter.checkDepth p.settings.maxDepth
  return p.digest q.canonical

/-- Checks the depth of a query, and plans it under its fingerprint. -/
def plan (p : Planner) (source : StatisticsSource) (q : Query) (s : PlannerState) :
    Except PlanningError Selection × PlannerState :=
  match p.fingerprint q with
  | .error e => (.error e, s)
  | .ok f => p.planQuery source q f s

/-- Chooses a plan for a query and reports the beginning and the end of planning. -/
def select (p : Planner) (source : StatisticsSource) (q : Query) (s : PlannerState) :
    Except PlanningError Selection × PlannerState :=
  let scope : Scope := ⟨"PLANNING", [("record_type", q.recordType)]⟩
  let s := { s with monitor := s.monitor.add scope.begin }
  match p.plan source q s with
  | (.ok chosen, s) =>
    let done := scope.complete
      [("fingerprint", chosen.fingerprint.render), ("plan_type", chosen.plan.typeName)]
      s.monitor.elapsed
    (.ok chosen, { s with monitor := s.monitor.add done })
  | (.error e, s) =>
    let s := s.count fun m => { m with planningFailures := m.planningFailures + 1 }
    let shown := match p.fingerprint q with
      | .ok f => [("fingerprint", f.render)]
      | .error _ => []
    let failed := scope.fail ([("code", e.code), ("reason", e.message)] ++ shown) s.monitor.elapsed
    (.error e, { s with monitor := s.monitor.add failed })

/-- Forgets the remembered plans. -/
def invalidateCache (s : PlannerState) : PlannerState := { s with cache := s.cache.clear }

end Planner

end RecordLayer
