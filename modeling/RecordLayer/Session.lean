import RecordLayer.Cursor
import RecordLayer.Selection.Explanation
import RecordLayer.Statistics.Collection
import RecordLayer.Store.Transaction

/-!
# Sessions

What a caller works with: one store with its statistics, one planner with its cache and monitor, and
the transactions, snapshots and running cursors that the caller keeps by name. Every operation is a
step from one session to the next. A name that stands for nothing makes a step impossible;
everything else that can go wrong is an answer.
-/

namespace RecordLayer

/-- A running cursor with the state that it reads. -/
structure OpenCursor where
  cursor : Cursor
  /-- The state at the time of opening. -/
  view : StoreView
  /-- The transaction that depends on what is read. -/
  transaction : Option String := none
  /-- The token that cancels the execution. -/
  token : Option String := none
  trace : ReadTrace := {}

/-- What a read goes to. -/
inductive ReadTarget
  | committed
  | transaction (name : String)
  | snapshot (name : String)
deriving DecidableEq, Inhabited

namespace ReadTarget

/-- The transaction that depends on a read. -/
def transaction? : ReadTarget → Option String
  | transaction name => some name
  | _ => none

end ReadTarget

/-- The state of a session. -/
structure Session where
  planner : Planner
  planning : PlannerState
  store : Store
  statistics : Statistics := {}
  /-- The record types and indexes whose statistics cannot be had. -/
  unavailable : List String := []
  /-- Whether the planner goes without statistics. -/
  plansBlindly : Bool := false
  transactions : SortedMap String Transaction := []
  snapshots : SortedMap String StoreView := []
  cursors : SortedMap String OpenCursor := []
  /-- The tokens that were cancelled. -/
  cancelled : List String := []
  /-- How many log lines were handed out. -/
  linesTaken : Nat := 0

namespace Session

/-- A step of a session; there is none if a name stands for nothing. -/
abbrev Step (α : Type) := StateT Session Option α

/-- A session over an empty store, if the settings are valid. It logs from the threshold of the
settings on. -/
def create (catalog : Catalog) (settings : PlannerSettings) : Except PlanningError Session := do
  let (planner, planning) ← Planner.create catalog settings
  let monitor : Monitor := { log := { threshold := settings.threshold } }
  return { planner, planning := { planning with monitor }, store := { catalog } }

/-- What is registered. -/
def catalog (s : Session) : Catalog := s.planner.catalog

/-- The collected statistics as a source. -/
def source (s : Session) : StatisticsSource := s.statistics.toSource.failingFor s.unavailable

/-- Where the planner has its statistics from. -/
def planningSource (s : Session) : StatisticsSource :=
  if s.plansBlindly then .none else s.source

/-- Whether the token of an execution was cancelled. -/
def isCancelled (s : Session) (token : Option String) : Bool := token.any s.cancelled.contains

/-! ## Transactions -/

/-- The transaction of a name. -/
def transactionNamed (name : String) : Step Transaction := fun s =>
  (s.transactions.lookup? name).map (·, s)

/-- Keeps a transaction under a name. -/
def putTransaction (name : String) (t : Transaction) : Step Unit :=
  modify fun s => { s with transactions := s.transactions.put name t }

/-- Begins a transaction. -/
def begin (name : String) : Step Unit := do putTransaction name (← get).store.begin

/-- Saves a record in a transaction. -/
def save (name recordType : String) (r : Record) : Step (Except StoreError Unit) := do
  let (outcome, t) := (← transactionNamed name).save (← get).store recordType r
  putTransaction name t
  return outcome

/-- Deletes the record of a primary key in a transaction and says whether there was one. -/
def delete (name recordType : String) (primaryKey : Value) : Step (Except StoreError Bool) := do
  match (← transactionNamed name).delete (← get).store recordType primaryKey with
  | .error e => return .error e
  | .ok (found, t) =>
    putTransaction name t
    return .ok found

/-- Ends a transaction and publishes what it wrote. -/
def commit (name : String) : Step (Except StoreError Unit) := do
  let (outcome, t) := (← transactionNamed name).commit (← get).store
  putTransaction name t
  match outcome with
  | .error e => return .error e
  | .ok store =>
    modify fun s => { s with store }
    return .ok ()

/-- Ends a transaction and drops what it wrote. -/
def cancel (name : String) : Step Unit := do putTransaction name (← transactionNamed name).cancel

/-- Saves records in a transaction of their own. -/
def insert (recordType : String) (records : List Record) : Step (Except StoreError Unit) := do
  match (← get).store.insertAll recordType records with
  | .error e => return .error e
  | .ok store =>
    modify fun s => { s with store }
    return .ok ()

/-! ## Reads -/

/-- The state that a read goes to. -/
def viewOf : ReadTarget → Step StoreView
  | .committed => do return (← get).store.view
  | .transaction name => do return (← transactionNamed name).view (← get).catalog
  | .snapshot name => fun s => (s.snapshots.lookup? name).map (·, s)

/-- Keeps a state under a name. -/
def keepSnapshot (name : String) (target : ReadTarget) : Step Unit := do
  let v ← viewOf target
  modify fun s => { s with snapshots := s.snapshots.put name v }

/-- Makes a transaction depend on what was read. -/
def noteReads (transaction : Option String) (trace : ReadTrace) : Step Unit := do
  if let some name := transaction then
    putTransaction name ((← transactionNamed name).noteReads trace)

/-- Reads from a target. -/
def read {α : Type} (target : ReadTarget) (x : StoreView → Reading α) :
    Step (Except StoreError α) := do
  let (outcome, trace) := (x (← viewOf target)).run
  noteReads target.transaction? trace
  return outcome

/-- Rebuilds the statistics of a record type from a target. There is no answer if some histogram
has no room: the program ends. -/
def analyze (target : ReadTarget) (t : RecordType) (buckets : Nat) :
    Step (Option (Except StoreError Unit)) := do
  let statistics := (← get).statistics
  match ← read target fun v => (statistics.refresh Bucket.room v t buckets).run with
  | .error e => return some (.error e)
  | .ok none => return none
  | .ok (some statistics) =>
    modify fun s => { s with statistics }
    return some (.ok ())

/-! ## Planning -/

/-- Lets the planner take a step of its own. -/
def planWith {α : Type} (f : PlannerState → α × PlannerState) : Step α := do
  let (a, planning) := f (← get).planning
  modify fun s => { s with planning }
  return a

/-- Chooses a plan for a query. -/
def select (q : Query) : Step (Except PlanningError Selection) := do
  let s ← get
  planWith (s.planner.select s.planningSource q)

/-- Chooses a plan for a query and reports on it. -/
def explain (q : Query) : Step Explanation := do
  let s ← get
  planWith (s.planner.explain s.planningSource q)

/-- What candidate plans for a record type are generated from. -/
def planningContext (s : Session) (t : RecordType) : PlanningContext :=
  s.planner.context s.source t

/-- The candidates for a query and what they were generated from. Lists that are too long to be
looked up are reported. -/
def candidates (q : Query) : Step (Except PlanningError (PlanningContext × List Plan)) := do
  let s ← get
  let prepared : Except PlanningError (RecordType × Filter.Prepared) := do
    return (← q.validate s.catalog, ← q.filter.prepare s.planner.settings.limits)
  match prepared with
  | .error e => return .error e
  | .ok (t, r) =>
    let c := s.planningContext t
    let (plans, overlong) := c.generate r q
    planWith fun p => (.ok (c, plans), s.planner.reportOverlong p overlong)

/-- Remembers a plan under the fingerprint of a query and gives the fingerprint that had to go. -/
def remember (q : Query) (canonical : String) (p : Plan) (cost : QueryCost) :
    Step (Option Fingerprint) := do
  let fingerprint := (← get).planner.digest q.canonical
  planWith fun s =>
    let (evicted, cache) := s.cache.insert fingerprint canonical p cost
    (evicted, { s with cache })

/-- Forgets the remembered plans. -/
def invalidateCache : Step Unit := planWith fun s => ((), Planner.invalidateCache s)

/-- The log lines since the last time. -/
def takeLines : Step (List String) := do
  let s ← get
  let lines := s.planning.monitor.log.lines
  set { s with linesTaken := lines.length }
  return lines.drop s.linesTaken

/-! ## Execution -/

/-- What is needed to open a cursor besides the plan. -/
structure Opening where
  recordType : String
  view : StoreView
  target : ReadTarget := .committed
  consistency : Consistency := .serializable
  token : Option String := none
  requestId : String

/-- Replaces the monitor. -/
def putMonitor (monitor : Monitor) : Step Unit :=
  modify fun s => { s with planning := { s.planning with monitor } }

/-- Opens a cursor for a plan. -/
def openCursor (o : Opening) (p : Plan) : Step (Except ExecutionError OpenCursor) := do
  let s ← get
  match ExecutionContext.create s.catalog o.recordType o.consistency o.requestId with
  | .error e => return .error e
  | .ok c =>
    let (opened, monitor) := Cursor.open c p s.planning.monitor
    putMonitor monitor
    return opened.map fun cursor =>
      { cursor, view := o.view, transaction := o.target.transaction?, token := o.token }

/-- Takes over what a pull of a cursor came to. -/
def afterPull (c : OpenCursor) (p : Cursor.Pulled) : Step OpenCursor := do
  putMonitor p.monitor
  noteReads c.transaction p.trace
  return { c with cursor := p.cursor, trace := p.trace }

/-- Pulls the next record of a cursor. -/
def pull (c : OpenCursor) : Step (Except ExecutionError (Option Record) × OpenCursor) := do
  let s ← get
  let p := c.cursor.next c.view (s.isCancelled c.token) c.trace s.planning.monitor
  return (p.result, ← afterPull c p)

/-- Pulls from a cursor until its end or an error. -/
def drain (c : OpenCursor) : Step (List Record × Option ExecutionError × OpenCursor) := do
  let s ← get
  let (records, e, p) := c.cursor.drain c.view (s.isCancelled c.token) c.trace s.planning.monitor
  return (records, e, ← afterPull c p)

/-- The cursor of a name. -/
def cursorNamed (name : String) : Step OpenCursor := fun s =>
  (s.cursors.lookup? name).map (·, s)

/-- Keeps a cursor under a name. -/
def putCursor (name : String) (c : OpenCursor) : Step Unit :=
  modify fun s => { s with cursors := s.cursors.put name c }

/-- Cancels the executions of a token. -/
def cancelToken (token : String) : Step Unit :=
  modify fun s => { s with cancelled := token :: s.cancelled }

end Session

end RecordLayer
