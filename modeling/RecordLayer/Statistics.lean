import RecordLayer.Catalog
import RecordLayer.Histogram
import RecordLayer.SortedMap

/-!
# Statistics

What planning knows about the stored records: how many there are, how many distinct values each
field has, and histograms over the leading fields of indexes. A snapshot holds what a source offers
for one record type, less what fails validation; estimates read only snapshots.
-/

namespace RecordLayer

/-- Row and distinct counts of one record type. -/
structure TableStatistics where
  recordType : String
  rowCount : UInt64
  /-- Distinct values of each field, by field name. -/
  distinctCounts : SortedMap String UInt64 := []
deriving DecidableEq, Inhabited

namespace TableStatistics

/-- Adds the number of distinct values of a field. -/
def withDistinct (t : TableStatistics) (field : String) (count : UInt64) : TableStatistics :=
  { t with distinctCounts := t.distinctCounts.put field count }

/-- Refuses a field with more distinct values than there are rows. -/
def validate (t : TableStatistics) : Except StatisticsError Unit :=
  match t.distinctCounts.find? fun (_, distinct) => t.rowCount < distinct with
  | some (field, distinct) => .error (.tooManyDistinct t.recordType field distinct t.rowCount)
  | none => .ok ()

end TableStatistics

/-- Where statistics come from. A source may have none, and it may fail. -/
structure StatisticsSource where
  table : String → Except StatisticsError (Option TableStatistics)
  histogram : Index → Except StatisticsError (Option Histogram)

namespace StatisticsSource

/-- The source that has no statistics. -/
def none : StatisticsSource := ⟨fun _ => .ok .none, fun _ => .ok .none⟩

/-- The source that fails for the given record types and indexes. -/
def failingFor (source : StatisticsSource) (names : List String) : StatisticsSource where
  table name := if names.contains name then .error (.unavailable name) else source.table name
  histogram index :=
    if names.contains index.name then .error (.unavailable index.name) else source.histogram index

end StatisticsSource

/-- Collected statistics, by record type and by index. -/
structure Statistics where
  tables : SortedMap String TableStatistics := []
  histograms : SortedMap String Histogram := []
deriving Inhabited

namespace Statistics

/-- Sets the statistics of a record type. -/
def putTable (s : Statistics) (t : TableStatistics) : Statistics :=
  { s with tables := s.tables.put t.recordType t }

/-- Sets the histogram of an index. -/
def putHistogram (s : Statistics) (index : String) (h : Histogram) : Statistics :=
  { s with histograms := s.histograms.put index h }

/-- Drops everything collected for a record type. -/
def clear (s : Statistics) (catalog : Catalog) (recordType : String) : Statistics where
  tables := s.tables.drop recordType
  histograms := (catalog.indexesOf recordType).foldl (fun hs i => hs.drop i.name) s.histograms

/-- Collected statistics as a source. -/
def toSource (s : Statistics) : StatisticsSource where
  table name := .ok (s.tables.lookup? name)
  histogram index := .ok (s.histograms.lookup? index.name)

/-- The values that records have at a position. A short record has none there. -/
def column (records : List Record) (position : Nat) : List Value :=
  records.filterMap (·.values[position]?)

/-- Counts records and the distinct values in each field of their type. -/
def count (t : RecordType) (records : List Record) : TableStatistics :=
  t.fields.zipIdx.foldl
    (fun (table : TableStatistics) (field, position) =>
      table.withDistinct field.name (Value.sortDistinct (column records position)).length.toUInt64)
    { recordType := t.name, rowCount := records.length.toUInt64 }

/-- Spreads the values of records at a position over at most `buckets` buckets, if there is room for
them. -/
def spread (room : Nat) (records : List Record) (position buckets : Nat) : Option Histogram :=
  Histogram.ofSorted room (Value.sort (column records position)) buckets

end Statistics

/-- Validated statistics for planning over one record type. -/
structure StatisticsSnapshot where
  table : Option TableStatistics := none
  /-- Usable histograms with the index and the leading field, in the order of the indexes. -/
  histograms : List (Index × Histogram) := []
  /-- What was left out. -/
  rejected : List StatisticsError := []
deriving Inhabited

namespace StatisticsSnapshot

/-- Refuses a histogram that is corrupt or does not fit the type of the leading field. -/
def checkHistogram (t : RecordType) (index : Index) (h : Histogram) :
    Except StatisticsError Unit := do
  h.validate index.name
  let field := index.leadingField?.bind fun name => t.fields.find? (·.name == name)
  match field, h.kind? with
  | some field, some kind =>
    if field.type.accepts kind then return ()
    else throw (.histogramTypeMismatch index.name field.type.name kind.name)
  | _, _ => return ()

/-- The statistics of a record type, if the source has them and they are valid. -/
def fetchTable (source : StatisticsSource) (t : RecordType) :
    Except StatisticsError (Option TableStatistics) := do
  match ← source.table t.name with
  | none => return none
  | some table =>
    table.validate
    return some table

/-- The histogram of an index, if the source has one and it is valid. -/
def fetchHistogram (source : StatisticsSource) (t : RecordType) (index : Index) :
    Except StatisticsError (Option Histogram) := do
  match ← source.histogram index with
  | none => return none
  | some h =>
    checkHistogram t index h
    return some h

/-- Adds the histogram of an index. An empty one says nothing and is passed over. -/
def addHistogram (source : StatisticsSource) (t : RecordType) (s : StatisticsSnapshot)
    (index : Index) : StatisticsSnapshot :=
  match fetchHistogram source t index with
  | .ok none => s
  | .ok (some h) =>
    if h.buckets.isEmpty then s else { s with histograms := s.histograms ++ [(index, h)] }
  | .error e => { s with rejected := s.rejected ++ [e] }

/-- Fetches and validates the statistics of a record type and its indexes. -/
def gather (source : StatisticsSource) (t : RecordType) (indexes : List Index) :
    StatisticsSnapshot :=
  let start : StatisticsSnapshot := match fetchTable source t with
    | .ok table => { table }
    | .error e => { rejected := [e] }
  indexes.foldl (addHistogram source t) start

/-- How many rows there are. -/
def rowCount? (s : StatisticsSnapshot) : Option UInt64 := s.table.map (·.rowCount)

/-- How many distinct values a field has. -/
def distinct? (s : StatisticsSnapshot) (field : String) : Option UInt64 :=
  s.table.bind (·.distinctCounts.lookup? field)

/-- The histogram of an index. -/
def histogram? (s : StatisticsSnapshot) (index : String) : Option Histogram :=
  (s.histograms.find? (·.1.name == index)).map (·.2)

/-- The histogram of the first index that leads with a field. -/
def fieldHistogram? (s : StatisticsSnapshot) (field : String) : Option Histogram :=
  (s.histograms.find? (·.1.leadingField? == some field)).map (·.2)

end StatisticsSnapshot

end RecordLayer
