import RecordLayer.KeyRange
import RecordLayer.Store.Error
import RecordLayer.Store.Table

/-!
# Reading a store

A view is one state of a store that reads go to. A scan is the list of rows that it will yield; they
are yielded one at a time. As the state never changes, a scan of an index is asked for all of its
rows when it starts. Reads leave a trace of what was asked for, from which a transaction learns what
it depends on; and a view may carry a schedule of faults, which decides from the trace so far
whether the next read fails.
-/

namespace RecordLayer

/-- What a read inside a transaction promises. -/
inductive Consistency
  /-- The table read joins the tables that the transaction depends on. -/
  | serializable
  /-- The read never causes a conflict. -/
  | snapshot
deriving DecidableEq, Inhabited

/-- A read that was asked for. -/
inductive ReadCall
  | scanRecords (recordType : String) (consistency : Consistency)
  | scanIndex (index recordType : String) (consistency : Consistency)
  | load (recordType : String) (primaryKey : Value) (consistency : Consistency)
deriving DecidableEq

namespace ReadCall

/-- The record type that a read makes a transaction depend on. -/
def dependsOn? : ReadCall → Option String
  | scanRecords t .serializable | scanIndex _ t .serializable | load t _ .serializable => some t
  | _ => none

end ReadCall

/-- What was read so far. -/
structure ReadTrace where
  /-- The reads asked for, the latest one first. -/
  calls : List ReadCall := []
  /-- How many rows scans found. -/
  rows : Nat := 0
  /-- How many times a scan was asked for a row and had no more. -/
  ends : Nat := 0
  /-- How many times ranks were asked for. -/
  ranks : Nat := 0
  /-- How many times a scan of all records of a type was asked for. -/
  scans : Nat := 0
deriving Inhabited

/-- A computation that reads a store and may fail; the trace is kept either way. -/
abbrev Reading := ExceptT StoreError (StateM ReadTrace)

/-- A point at which a read can fail. -/
inductive FaultPoint
  /-- A scan is asked for its next row. The row that it is about to yield, or its end, is already
  counted. -/
  | row
  | load (primaryKey : Value)
  | rank
deriving DecidableEq

/-- Decides whether a read fails, from what was read before. -/
abbrev FaultSchedule := FaultPoint → ReadTrace → Option StoreError

/-- One state of a store to read from. -/
structure StoreView where
  catalog : Catalog
  tables : Tables
  /-- False for a transaction that has ended. -/
  isOpen : Bool := true
  fault : FaultSchedule := fun _ _ => none
  /-- Primary keys whose records are not found when they are loaded. -/
  hidden : List Value := []

namespace StoreView

/-! ## Traces and faults -/

/-- Refuses to read through an ended transaction. -/
def ensureOpen (v : StoreView) : Reading Unit :=
  if v.isOpen then pure () else throw .transactionClosed

/-- Notes a read. -/
def note (call : ReadCall) : Reading Unit :=
  modify fun trace => { trace with calls := call :: trace.calls }

/-- Fails if the schedule says so. -/
def checkFault (v : StoreView) (point : FaultPoint) : Reading Unit := do
  match v.fault point (← get) with
  | some e => throw e
  | none => pure ()

/-- Counts a row and yields it unless the schedule says otherwise. -/
def yieldRow {α : Type} (v : StoreView) (row : α) : Reading α := do
  modify fun trace => { trace with rows := trace.rows + 1 }
  v.checkFault .row
  return row

/-- Counts the end of a scan, which may fail like any other row that is asked for. -/
def endRows (v : StoreView) : Reading Unit := do
  modify fun trace => { trace with ends := trace.ends + 1 }
  v.checkFault .row

/-! ## Names -/

/-- The record type of a name. -/
def recordType (v : StoreView) (name : String) : Reading RecordType :=
  match v.catalog.recordType? name with
  | some t => pure t
  | none => throw (.unknownRecordType name)

/-- The record type of an index that is registered. -/
def checkIndex (v : StoreView) (index : Index) : Reading RecordType := do
  let t ← v.recordType index.recordType
  if (v.catalog.indexesOf index.recordType).any (·.name == index.name) then return t
  else throw (.unknownIndex index.name)

/-- The table of a record type. -/
def table? (v : StoreView) (recordType : String) : Option Table := v.tables.lookup? recordType

/-! ## Records -/

/-- The records of a type as a table keeps them, in the order of primary keys. -/
def recordsOf (v : StoreView) (recordType : String) : List Record :=
  match v.table? recordType with
  | none => []
  | some table => table.records.map (·.2)

/-- Starts a scan of the records of a type and gives the rows that it will yield. -/
def scanRecords (v : StoreView) (recordType : String) (consistency : Consistency) :
    Reading (List Record) := do
  modify fun trace => { trace with scans := trace.scans + 1 }
  v.ensureOpen
  note (.scanRecords recordType consistency)
  let _ ← v.recordType recordType
  return v.recordsOf recordType

/-- All records of a type. -/
def records (v : StoreView) (recordType : String) (consistency : Consistency) :
    Reading (List Record) := do
  let records ← (← v.scanRecords recordType consistency).mapM v.yieldRow
  v.endRows
  return records

/-- The record of a primary key. -/
def loadRecord (v : StoreView) (recordType : String) (primaryKey : Value)
    (consistency : Consistency) : Reading (Option Record) := do
  v.checkFault (.load primaryKey)
  v.ensureOpen
  note (.load recordType primaryKey consistency)
  let _ ← v.recordType recordType
  if v.hidden.contains primaryKey then return none
  return (v.table? recordType).bind (·.records.lookup? primaryKey)

/-! ## Index entries -/

/-- An entry of an index with the fields that it carries. -/
structure IndexEntry where
  key : List Value
  primaryKey : Value
  stored : Record

/-- A row of a scan of an index. -/
inductive EntryRow
  | entry (e : IndexEntry)
  /-- An entry whose record is missing. -/
  | dangling (index : String) (primaryKey : Value)

/-- The row of an entry of a table. -/
def entryRow (table : Table) (t : RecordType) (index : Index) (e : EntryKey) : EntryRow :=
  match table.records.lookup? e.primaryKey with
  | some r => .entry ⟨e.key, e.primaryKey, index.project t r⟩
  | none => .dangling index.name e.primaryKey

/-- A scan of the entries of an index. It keeps the entry that it gave last and looks for its place
in the index anew for every row. -/
structure EntryScan where
  /-- The entry given last. -/
  after : Option EntryKey := none
  ended : Bool := false

/-- Whether the search for the next row passes over an entry: at first those before the start of the
range, later those up to the one given last. -/
def EntryScan.passes (scan : EntryScan) (range : KeyRange) (e : EntryKey) : Bool :=
  match scan.after with
  | none => e.compare ⟨range.startKey, .null⟩ == .lt
  | some last => e.compare last != .gt

/-- The first entry of a range; the search ends at the first entry past it. -/
def firstWithin? (range : KeyRange) : List EntryKey → Option EntryKey
  | [] => none
  | e :: rest =>
    if range.isPast e.key then none
    else if range.contains e.key then some e
    else firstWithin? range rest

/-- Asks a scan for its next row. An entry whose record is missing ends the scan. -/
def pullEntry (v : StoreView) (t : RecordType) (index : Index) (range : KeyRange)
    (scan : EntryScan) : Option EntryRow × EntryScan :=
  if scan.ended then (none, scan)
  else
    match v.table? index.recordType with
    | none => (none, scan)
    | some table =>
      match table.data? index with
      | none => (none, scan)
      | some data =>
        match firstWithin? range (data.entries.dropWhile (scan.passes range)) with
        | none => (none, { ended := true })
        | some e =>
          match entryRow table t index e with
          | .entry row => (some (.entry row), { after := some e })
          | .dangling name primaryKey =>
            (some (.dangling name primaryKey), { after := some e, ended := true })

/-- What a scan gives when it is asked for so many rows, one after the other. -/
def pullEntries (v : StoreView) (t : RecordType) (index : Index) (range : KeyRange) :
    Nat → EntryScan → List (Option EntryRow)
  | 0, _ => []
  | count + 1, scan =>
    let pulled := v.pullEntry t index range scan
    pulled.1 :: v.pullEntries t index range count pulled.2

/-- The entries that a view has for an index. -/
def entryKeys (v : StoreView) (index : Index) : List EntryKey :=
  match v.table? index.recordType with
  | none => []
  | some table =>
    match table.data? index with
    | none => []
    | some data => data.entries

/-- How many entries a view has for an index. -/
def entryCount (v : StoreView) (index : Index) : Nat := (v.entryKeys index).length

/-- The rows that a scan of an index gives: as many as it has entries are enough. -/
def entriesOf (v : StoreView) (t : RecordType) (index : Index) (range : KeyRange) :
    List EntryRow :=
  (v.pullEntries t index range (v.entryCount index) {}).filterMap id

/-- Starts a scan of the entries of an index within a range and gives the rows
that it will yield. -/
def scanIndex (v : StoreView) (index : Index) (range : KeyRange) (consistency : Consistency) :
    Reading (List EntryRow) := do
  v.ensureOpen
  note (.scanIndex index.name index.recordType consistency)
  let t ← v.checkIndex index
  return v.entriesOf t index range

/-- Yields a row of a scan of an index; a missing record is an error. -/
def yieldEntry (v : StoreView) (row : EntryRow) : Reading IndexEntry := do
  match ← v.yieldRow row with
  | .entry e => return e
  | .dangling index primaryKey =>
    throw (.io ("index '" ++ index ++ "' references missing record " ++ primaryKey.render))

/-- All entries of an index within a range. -/
def entries (v : StoreView) (index : Index) (range : KeyRange) (consistency : Consistency) :
    Reading (List IndexEntry) := do
  let entries ← (← v.scanIndex index range consistency).mapM v.yieldEntry
  v.endRows
  return entries

/-! ## Ranks -/

/-- The ranking of a rank index, if there is a table for it. -/
def ranking (v : StoreView) (index : Index) : Reading (Option (RankedSet Value)) := do
  modify fun trace => { trace with ranks := trace.ranks + 1 }
  v.checkFault .rank
  v.ensureOpen
  let _ ← v.checkIndex index
  if index.isRank then
    return ((v.table? index.recordType).bind (·.data? index)).bind (·.ranks)
  else throw (.notRankIndex index.name)

/-- How many indexed values are strictly below a value. -/
def rankOf (v : StoreView) (index : Index) (value : Value) : Reading UInt64 := do
  match ← v.ranking index with
  | some ranks => return (ranks.rank value).toUInt64
  | none => return 0

/-- The indexed value at a rank. -/
def selectRank (v : StoreView) (index : Index) (rank : UInt64) : Reading (Option Value) := do
  return (← v.ranking index).bind (·.select rank.toNat)

/-- How many values are indexed. -/
def rankCount (v : StoreView) (index : Index) : Reading UInt64 := do
  match ← v.ranking index with
  | some ranks => return ranks.size.toUInt64
  | none => return 0

end StoreView

/-- Runs a computation that reads a store, from an empty trace. -/
def Reading.run {α : Type} (x : Reading α) : Except StoreError α × ReadTrace :=
  (ExceptT.run x).run {}

end RecordLayer
