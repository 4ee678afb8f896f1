import RecordLayer.Store.View
import RecordLayer.Text.Order

/-!
# Transactions

A transaction works on the state that was committed when it began. Its writes stay its own until it
commits, and it commits only if no table that it wrote, or read with the promise of serializability,
was committed by another transaction in between.
-/

namespace RecordLayer

/-- The committed state of a store. -/
structure Store where
  catalog : Catalog
  committed : Tables := []
  /-- Where the ranking of each index takes its heights from. -/
  heights : String → RankedSet.Heights := fun _ => .ruler

/-- The state of one transaction. -/
structure Transaction where
  /-- The state at the beginning with the transaction's own writes. -/
  tables : Tables
  /-- The version of each table at the beginning. -/
  beginVersions : SortedMap String Nat
  /-- The tables written, each once. -/
  written : List String := []
  /-- The tables that the transaction depends on by reading, each once. -/
  read : List String := []
  isOpen : Bool := true
deriving Inhabited

namespace Store

/-- The committed state as a view. -/
def view (s : Store) : StoreView := { catalog := s.catalog, tables := s.committed }

/-- Begins a transaction. -/
def begin (s : Store) : Transaction where
  tables := s.committed
  beginVersions := s.committed.map fun (name, t) => (name, t.version)

/-- A table for the records of a type. -/
def newTable (s : Store) (recordType : String) : Table :=
  .empty (s.catalog.plannableIndexes recordType) s.heights

end Store

namespace Transaction

/-- What the transaction reads. -/
def view (t : Transaction) (catalog : Catalog) : StoreView :=
  { catalog, tables := t.tables, isOpen := t.isOpen }

/-- Adds a name that is not among the others. -/
def addName (name : String) (names : List String) : List String :=
  if names.contains name then names else name :: names

/-- Takes over what reads through the view depend on. -/
def noteReads (t : Transaction) (trace : ReadTrace) : Transaction :=
  { t with read := (trace.calls.filterMap ReadCall.dependsOn?).foldr addName t.read }

/-- The table of a record type, to be written; the transaction gets one if it has none. -/
def openTable (t : Transaction) (s : Store) (recordType : String) : Table × Transaction :=
  match t.tables.lookup? recordType with
  | some table => (table, t)
  | none =>
    let table := s.newTable recordType
    (table, { t with tables := t.tables.put recordType table })

/-- Saves a record, in place of the one with the same primary key. -/
def save (t : Transaction) (s : Store) (recordType : String) (r : Record) :
    Except StoreError Unit × Transaction :=
  if !t.isOpen then (.error .transactionClosed, t)
  else
    match s.catalog.recordType? recordType with
    | none => (.error (.unknownRecordType recordType), t)
    | some type =>
      match type.validate r with
      | .error e => (.error (.schema e), t)
      | .ok _ =>
        let indexes := s.catalog.plannableIndexes recordType
        let (table, t) := t.openTable s recordType
        match table.violation? type indexes r with
        | some i => (.error (.uniqueViolation i.name (Value.renderTaggedList (i.keyOf type r))), t)
        | none =>
          let table := (table.unlink type indexes (type.keyOf r)).link type indexes r
          (.ok (), { t with
            tables := t.tables.put recordType table
            written := addName recordType t.written })

/-- Saves records up to the first one that is refused. -/
def saveAll (t : Transaction) (s : Store) (recordType : String) :
    List Record → Except StoreError Unit × Transaction
  | [] => (.ok (), t)
  | r :: rest =>
    match t.save s recordType r with
    | (.error e, t) => (.error e, t)
    | (.ok _, t) => t.saveAll s recordType rest

/-- Deletes the record of a primary key and says whether there was one. -/
def delete (t : Transaction) (s : Store) (recordType : String) (primaryKey : Value) :
    Except StoreError (Bool × Transaction) :=
  if !t.isOpen then .error .transactionClosed
  else
    match s.catalog.recordType? recordType with
    | none => .error (.unknownRecordType recordType)
    | some type =>
      match t.tables.lookup? recordType with
      | none => .ok (false, t)
      | some table =>
        if table.records.has primaryKey then
          let table := table.unlink type (s.catalog.plannableIndexes recordType) primaryKey
          .ok (true, { t with
            tables := t.tables.put recordType table
            written := addName recordType t.written })
        else .ok (false, t)

/-- The version of a table in a state, zero for a table that is not there. -/
def versionIn (tables : Tables) (name : String) : Nat :=
  match tables.lookup? name with
  | some table => table.version
  | none => 0

/-- The version of a table at the beginning. -/
def versionAtBegin (t : Transaction) (name : String) : Nat := (t.beginVersions.lookup? name).getD 0

/-- The first table that was committed since the beginning: among those written, then among those
read, each in the order of names. -/
def conflict? (t : Transaction) (s : Store) : Option String :=
  (Text.sort t.written ++ Text.sort t.read).find? fun name =>
    versionIn s.committed name != t.versionAtBegin name

/-- Puts a written table into a committed state, one version later. -/
def publish (t : Transaction) (committed : Tables) (name : String) : Tables :=
  match t.tables.lookup? name with
  | none => committed
  | some table => committed.put name { table with version := t.versionAtBegin name + 1 }

/-- Ends the transaction and publishes what it wrote. -/
def commit (t : Transaction) (s : Store) : Except StoreError Store × Transaction :=
  if !t.isOpen then (.error .transactionClosed, t)
  else
    let closed := { t with isOpen := false }
    if t.written.isEmpty then (.ok s, closed)
    else
      match t.conflict? s with
      | some name => (.error (.conflict name), closed)
      | none => (.ok { s with committed := t.written.foldl t.publish s.committed }, closed)

/-- Ends the transaction and drops what it wrote. -/
def cancel (t : Transaction) : Transaction := { t with isOpen := false, written := [] }

end Transaction

/-- Saves records in one transaction and commits it. -/
def Store.insertAll (s : Store) (recordType : String) (records : List Record) :
    Except StoreError Store :=
  match s.begin.saveAll s recordType records with
  | (.error e, _) => .error e
  | (.ok _, t) => (t.commit s).1

end RecordLayer
