import RecordLayer.Statistics
import RecordLayer.Store.View

/-!
# Collecting statistics

Statistics of a record type as the stored records give them: a scan to count, and then one for each
index that plans may use. All of them go to one view, so they see the same records. A histogram that
there is no room for ends the program, so nothing is collected then.
-/

namespace RecordLayer.Statistics

/-- Scans the records of a type and rebuilds the histogram of the leading field of an index. -/
def refreshHistogram (room : Nat) (v : StoreView) (t : RecordType) (buckets : Nat) (s : Statistics)
    (index : Index) : OptionT Reading Statistics := do
  match index.leadingField?.bind t.position? with
  | none => return s
  | some position =>
    let records ← v.records t.name .snapshot
    match spread room records position buckets with
    | none => failure
    | some h => return s.putHistogram index.name h

/-- Rebuilds the statistics of a record type, with room for `room` buckets in a list. -/
def refresh (room : Nat) (s : Statistics) (v : StoreView) (t : RecordType) (buckets : Nat) :
    OptionT Reading Statistics := do
  let records ← v.records t.name .snapshot
  (v.catalog.plannableIndexes t.name).foldlM (refreshHistogram room v t buckets)
    (s.putTable (count t records))

end RecordLayer.Statistics
