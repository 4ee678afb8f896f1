import RecordLayer.Catalog
import RecordLayer.RankedSet
import RecordLayer.SortedMap

/-!
# Tables

The stored records of one type, by primary key, together with what its indexes keep: the entries in
the order of their keys, and for a rank index the ranking of its field. Linking and unlinking a
record keep the indexes in step with the records.
-/

namespace RecordLayer

/-- A key of an index and the primary key of the record that has it. -/
structure EntryKey where
  key : List Value
  primaryKey : Value
deriving DecidableEq, Inhabited

namespace EntryKey

/-- By key, then by primary key. -/
protected def compare (a b : EntryKey) : Ordering :=
  (Value.compareLists a.key b.key).then (a.primaryKey.compare b.primaryKey)

instance : Ord EntryKey := ⟨EntryKey.compare⟩

/-- Adds an entry to ascending ones; an entry that is there already is not repeated. -/
def insert (e : EntryKey) : List EntryKey → List EntryKey
  | [] => [e]
  | f :: rest =>
    match e.compare f with
    | .lt => e :: f :: rest
    | .eq => f :: rest
    | .gt => f :: insert e rest

/-- Removes an entry. -/
def erase (e : EntryKey) (entries : List EntryKey) : List EntryKey := entries.filter (· != e)

end EntryKey

/-- What an index keeps. -/
structure IndexData where
  /-- Strictly ascending. -/
  entries : List EntryKey := []
  /-- The values of the key field, for a rank index. -/
  ranks : Option (RankedSet Value) := none
deriving Inhabited

namespace IndexData

/-- Adds the entry of a record. -/
def link (d : IndexData) (e : EntryKey) : IndexData where
  entries := e.insert d.entries
  ranks := match e.key with
    | [] => d.ranks
    | v :: _ => d.ranks.map (·.insert v)

/-- Removes the entry of a record. -/
def unlink (d : IndexData) (e : EntryKey) : IndexData where
  entries := e.erase d.entries
  ranks := match e.key with
    | [] => d.ranks
    | v :: _ => d.ranks.map (·.erase v)

end IndexData

/-- The records of one type and its index data. -/
structure Table where
  /-- How many commits wrote the table. -/
  version : Nat := 0
  records : SortedMap Value Record := []
  indexes : SortedMap String IndexData := []
deriving Inhabited

/-- The key of a record in an index. -/
def Index.keyOf (i : Index) (t : RecordType) (r : Record) : List Value :=
  i.keyFields.map (t.valueOf r)

/-- The entry of a record in an index. -/
def Index.entryOf (i : Index) (t : RecordType) (r : Record) : EntryKey :=
  ⟨i.keyOf t r, t.keyOf r⟩

/-- The record with only the fields that an entry of the index carries. -/
def Index.project (i : Index) (t : RecordType) (r : Record) : Record :=
  ⟨(t.fields.zip r.values).map fun (f, v) =>
    if f.name = t.primaryKey ∨ i.storesField f.name then v else .null⟩

namespace Table

/-- The data of an index without entries. A ranking takes its heights by the name of the index. -/
def emptyData (heights : String → RankedSet.Heights) (i : Index) : IndexData where
  ranks := if i.isRank then some (.empty (heights i.name)) else none

/-- A table without records, with empty data for each index. -/
def empty (indexes : List Index) (heights : String → RankedSet.Heights) : Table where
  indexes := indexes.foldl (fun m i => m.put i.name (emptyData heights i)) []

/-- The index data of an index. -/
def data? (t : Table) (index : Index) : Option IndexData := t.indexes.lookup? index.name

/-- Changes the data of an index that the table keeps. -/
def updateIndex (table : Table) (index : Index) (f : IndexData → IndexData) : Table :=
  match table.data? index with
  | none => table
  | some d => { table with indexes := table.indexes.put index.name (f d) }

/-- Removes a record and its entries. -/
def unlink (table : Table) (t : RecordType) (indexes : List Index) (primaryKey : Value) : Table :=
  match table.records.lookup? primaryKey with
  | none => table
  | some old =>
    indexes.foldl
      (fun table i => table.updateIndex i (·.unlink ⟨i.keyOf t old, primaryKey⟩))
      { table with records := table.records.drop primaryKey }

/-- Adds a record and its entries. -/
def link (table : Table) (t : RecordType) (indexes : List Index) (r : Record) : Table :=
  indexes.foldl
    (fun table i => table.updateIndex i (·.link (i.entryOf t r)))
    { table with records := table.records.put (t.keyOf r) r }

/-- The first unique index whose key another record holds. -/
def violation? (table : Table) (t : RecordType) (indexes : List Index) (r : Record) :
    Option Index :=
  (indexes.filter (·.unique)).find? fun i =>
    let entry := i.entryOf t r
    match table.data? i with
    | none => false
    | some d => d.entries.any fun e => e.key = entry.key && e.primaryKey != entry.primaryKey

end Table

/-- The tables of a store, by record type. -/
abbrev Tables := SortedMap String Table

end RecordLayer
