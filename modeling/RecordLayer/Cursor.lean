import RecordLayer.Cursor.Error
import RecordLayer.Cursor.Node
import RecordLayer.Monitor

/-!
# Cursors

A cursor runs a plan and gives its records one at a time. It starts, is active, and ends either
exhausted or failed; nothing leads back. An exhausted cursor gives no more records, a failed one
only the error that it failed before, and a cancelled execution fails at its next pull. Every
end is reported once.
-/

namespace RecordLayer

/-- Where a cursor stands. -/
inductive CursorState
  | notStarted
  | active
  | exhausted
  | failed
deriving DecidableEq, Inhabited

namespace CursorState

/-- All states. -/
def all : List CursorState := [notStarted, active, exhausted, failed]

/-- The name of a state. -/
def name : CursorState → String
  | notStarted => "NOT_STARTED"
  | active => "ACTIVE"
  | exhausted => "EXHAUSTED"
  | failed => "FAILED"

end CursorState

/-- What an execution goes by. -/
structure ExecutionContext where
  catalog : Catalog
  recordType : RecordType
  consistency : Consistency := .serializable
  requestId : String

namespace ExecutionContext

/-- The context for plans over a registered record type. -/
def create (catalog : Catalog) (recordType : String) (consistency : Consistency)
    (requestId : String) : Except ExecutionError ExecutionContext :=
  match catalog.recordType? recordType with
  | some recordType => .ok { catalog, recordType, consistency, requestId }
  | none => .error (.invalidPlan (.unknownRecordType recordType))

/-! ## From a plan to nodes -/

/-- Turns a schema error into one of execution. -/
def schemaError : SchemaError → ExecutionError
  | .missingRankIndex _ field => .missingRankIndex field
  | e => .invalidPlan (.schema e)

/-- Binds a filter to the record type. -/
def compile (c : ExecutionContext) (f : Filter) : Except ExecutionError CompiledFilter :=
  match CompiledFilter.compile f c.recordType c.catalog with
  | .ok f => .ok f
  | .error e => .error (schemaError e)

/-- Binds each filter of a list; the first failure counts. -/
def compileAll (c : ExecutionContext) : List Filter → Except ExecutionError (List CompiledFilter)
  | [] => .ok []
  | f :: rest => do
    let compiled ← c.compile f
    return compiled :: (← c.compileAll rest)

/-- The position of a field. -/
def position (c : ExecutionContext) (field : String) : Except ExecutionError Nat :=
  match c.recordType.position field with
  | .ok i => .ok i
  | .error e => .error (.invalidPlan (.schema e))

/-- Refuses an index of another type and one that plans may not scan. -/
def checkIndex (c : ExecutionContext) (index : Index) : Except ExecutionError Unit :=
  if index.recordType ≠ c.recordType.name then
    .error (.invalidPlan (.otherIndexType index.name index.recordType c.recordType.name))
  else if !index.isPlannable then .error (.invalidPlan (.notPlannable index.name))
  else .ok ()

/-- The node of a scan of an index. -/
def buildScan (c : ExecutionContext) (scan : IndexScan) : Except ExecutionError CursorNode := do
  c.checkIndex scan.index
  if scan.bounds.isRanks ∧ !scan.index.isRank then
    throw (.missingRankIndex (scan.index.leadingField?.getD scan.index.name))
  return .indexScan scan.index scan.bounds scan.covering c.consistency none

/-- The node of look-ups of values. -/
def buildInJoin (c : ExecutionContext) (field : String) (values : List Value) (index : Index)
    (batchSize : Nat) : Except ExecutionError CursorNode := do
  c.checkIndex index
  if index.leadingField? ≠ some field then throw (.invalidPlan (.notLedBy index.name field))
  if batchSize = 0 then throw (.invalidPlan .zeroBatch)
  return .inJoin index values batchSize c.consistency 0 []

/-- The node of a union. -/
def buildUnion (c : ExecutionContext) (children : List CursorNode) (dedup : Option String)
    (merge : Option (List String)) : Except ExecutionError CursorNode := do
  let position ← dedup.mapM c.position
  match merge with
  | some key =>
    let adjacent := key.getLast? = dedup
    let positions ← key.mapM c.position
    return .merge children positions (position.map ({ position := ·, adjacent })) []
      (List.range children.length) none
  | none => return .chain children (position.map ({ position := ·, adjacent := false }))

mutual

/-- The nodes of a plan, none of them started. Nothing is read. -/
def build (c : ExecutionContext) : Plan → Except ExecutionError CursorNode
  | .fullScan recordType =>
    if recordType = c.recordType.name then .ok (.fullScan recordType c.consistency none)
    else .error (.invalidPlan (.otherRecordType recordType c.recordType.name))
  | .indexScan scan => c.buildScan scan
  | .union children dedup merge => do
    let nodes ← c.buildAll children
    c.buildUnion nodes dedup merge
  | .intersection children (some key) => do
    if children.isEmpty then throw (.invalidPlan .emptyIntersection)
    let nodes ← c.buildAll children
    return .join nodes (← key.mapM c.position) (nodes.map fun _ => none)
  | .intersection children none => c.buildProbe children
  | .inJoin field values index batchSize => c.buildInJoin field values index batchSize
  | .filter child residual => do
    let node ← c.build child
    return .filter node [← c.compile residual]
  | .limit child count => do return .limit (← c.build child) count

/-- The nodes of each plan of a list; the first failure counts. -/
def buildAll (c : ExecutionContext) : List Plan → Except ExecutionError (List CursorNode)
  | [] => .ok []
  | p :: rest => do
    let node ← c.build p
    return node :: (← c.buildAll rest)

/-- The node of the first plan of a list, under the filters of the others. -/
def buildProbe (c : ExecutionContext) : List Plan → Except ExecutionError CursorNode
  | [] => .error (.invalidPlan .emptyIntersection)
  | p :: rest => do
    let node ← c.build p
    return .filter node (← c.compileAll (Plan.matchingFilters rest))

end

/-- A full scan of the record type that the execution is about can be run. -/
theorem build_fullScan (c : ExecutionContext) :
    c.build (.fullScan c.recordType.name) =
      .ok (.fullScan c.recordType.name c.consistency none) := by
  rw [build, if_pos rfl]

end ExecutionContext

/-- A running plan. -/
structure Cursor where
  /-- The name of the root node. -/
  name : String
  node : CursorNode
  state : CursorState := .notStarted
  requestId : String
  /-- How many records were given. -/
  emitted : Nat := 0
deriving Inhabited

namespace Cursor

/-- Builds a cursor for a plan and reports it. -/
def «open» (c : ExecutionContext) (p : Plan) (m : Monitor) :
    Except ExecutionError Cursor × Monitor :=
  match c.build p with
  | .error e => (.error e, m)
  | .ok node =>
    let m := m.event .cursorOpened [("plan_type", p.typeName), ("record_type", c.recordType.name),
      ("request_id", c.requestId)]
    let m := m.count fun x => { x with cursorsOpened := x.cursorsOpened + 1 }
    (.ok { name := p.nodeName, node, requestId := c.requestId }, m)

/-- What reports of a cursor's end say. -/
def endFields (c : Cursor) : List (String × String) :=
  [("records", toString c.emitted), ("request_id", c.requestId)]

/-- Reports a failure. -/
def reportFailure (c : Cursor) (e : ExecutionError) (m : Monitor) : Monitor :=
  let m :=
    if e.isCancelled then
      (m.event .queryCancelled c.endFields).count fun x =>
        { x with queriesCancelled := x.queriesCancelled + 1 }
    else m.event .cursorAborted ([("code", e.code), ("reason", e.message)] ++ c.endFields)
  m.count fun x => { x with executionErrors := x.executionErrors + 1 }

/-- The cursor after a failure. -/
def fail (c : Cursor) (e : ExecutionError) (m : Monitor) : Cursor × Monitor :=
  ({ c with state := .failed }, c.reportFailure e m)

/-- The outcome of a pull. -/
structure Pulled where
  result : Except ExecutionError (Option Record)
  cursor : Cursor
  trace : ReadTrace
  monitor : Monitor

/-- Pulls the next record through a view. -/
def next (c : Cursor) (v : StoreView) (cancelled : Bool) (trace : ReadTrace) (m : Monitor) :
    Pulled :=
  match c.state with
  | .exhausted => ⟨.ok none, c, trace, m⟩
  | .failed => ⟨.error (.aborted c.name), c, trace, m⟩
  | .notStarted | .active =>
    if cancelled then
      let (c, m) := c.fail .cancelled m
      ⟨.error .cancelled, c, trace, m⟩
    else
      match (ExceptT.run (c.node.pull v)).run trace with
      | (.error e, trace) =>
        let (c, m) := c.fail (.store e) m
        ⟨.error (.store e), c, trace, m⟩
      | (.ok (.emit r node), trace) =>
        let c := { c with node, state := .active, emitted := c.emitted + 1 }
        ⟨.ok (some r), c, trace, m.count fun x => { x with recordsEmitted := x.recordsEmitted + 1 }⟩
      | (.ok _, trace) =>
        ⟨.ok none, { c with state := .exhausted }, trace, m.event .cursorExhausted c.endFields⟩

/-- Pulls until the end or the first error, at most `fuel` times, and gives the
records before it. -/
def drainWithin (v : StoreView) (cancelled : Bool) :
    Nat → Cursor → ReadTrace → Monitor → List Record × Option ExecutionError × Pulled
  | 0, c, trace, m => ([], none, ⟨.ok none, c, trace, m⟩)
  | fuel + 1, c, trace, m =>
    match c.next v cancelled trace m with
    | ⟨.ok (some r), c, trace, m⟩ =>
      let (records, e, last) := drainWithin v cancelled fuel c trace m
      (r :: records, e, last)
    | ⟨.ok none, c, trace, m⟩ => ([], none, ⟨.ok none, c, trace, m⟩)
    | ⟨.error e, c, trace, m⟩ => ([], some e, ⟨.error e, c, trace, m⟩)

/-- Pulls until the end or the first error, and gives the records before it. -/
def drain (c : Cursor) (v : StoreView) (cancelled : Bool) (trace : ReadTrace) (m : Monitor) :
    List Record × Option ExecutionError × Pulled :=
  drainWithin v cancelled (c.node.work v + 1) c trace m

end Cursor

end RecordLayer
