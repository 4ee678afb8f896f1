import RecordLayer.Filter.Compiled
import RecordLayer.Plan

/-!
# Cursor nodes

The state of a running plan is a tree of nodes like the plan itself. A node moves in small steps: a
step yields a record, or makes progress without one, or finds that there are no more. Steps do not
loop, so each is a recursion on the tree; pulling a record repeats steps until one yields.

Scans open at their first step, and no node is stepped again once it has come to its end.
-/

namespace RecordLayer

/-- What a step comes to. -/
inductive Pull (σ : Type)
  /-- A record and the state after it. -/
  | emit (r : Record) (next : σ)
  /-- Progress without a record. -/
  | busy (next : σ)
  /-- There are no more records. -/
  | done
deriving Inhabited

/-- The values at some positions of a record. -/
def Record.keyAt (r : Record) (positions : List Nat) : List Value := positions.map r.get

/-- Leaves out records whose value at a position was yielded before. -/
structure Dedup where
  position : Nat
  /-- Whether repetitions follow each other, so that the last value is enough to know. -/
  adjacent : Bool
  last : Option Value := none
  seen : List Value := []
deriving Inhabited

namespace Dedup

/-- Whether a record repeats a value, and what is remembered after it. -/
def check (d : Dedup) (r : Record) : Bool × Dedup :=
  let v := r.get d.position
  if d.adjacent then
    if d.last = some v then (true, d) else (false, { d with last := some v })
  else if d.seen.contains v then (true, d)
  else (false, { d with seen := v :: d.seen })

/-- `check`, where nothing is left out without a deduplication. -/
def check? : Option Dedup → Record → Bool × Option Dedup
  | none, _ => (false, none)
  | some d, r =>
    let (repeated, d) := d.check r
    (repeated, some d)

end Dedup

/-- The record that a child of a merge waits with. -/
structure MergeHead where
  key : List Value
  child : Nat
  record : Record
deriving Inhabited

namespace MergeHead

/-- By key, then by child. -/
def compare (a b : MergeHead) : Ordering :=
  (Value.compareLists a.key b.key).then (Ord.compare a.child b.child)

/-- Adds a head to ascending ones. -/
def insert (h : MergeHead) : List MergeHead → List MergeHead
  | [] => [h]
  | g :: rest => if h.compare g == .gt then g :: insert h rest else h :: g :: rest

end MergeHead

/-- The state of a node of a running plan. -/
inductive CursorNode
  | fullScan (recordType : String) (consistency : Consistency) (rows : Option (List Record))
  | indexScan (index : Index) (bounds : ScanBounds) (covering : Bool) (consistency : Consistency)
      (rows : Option (List StoreView.EntryRow))
  /-- The children that are not at their end yet, drained one after the other. -/
  | chain (children : List CursorNode) (dedup : Option Dedup)
  /-- Children merged by key. The heads wait in order; each child of `waiting` is asked for its next
  head before `held` goes out. -/
  | merge (children : List CursorNode) (key : List Nat) (dedup : Option Dedup)
      (heads : List MergeHead) (waiting : List Nat) (held : Option MergeHead)
  /-- Records whose key occurs in every child; one head a child, if it is known. -/
  | join (children : List CursorNode) (key : List Nat)
      (heads : List (Option (List Value × Record)))
  /-- Look-ups of values from `next` on, behind those of the current batch. -/
  | inJoin (index : Index) (values : List Value) (batchSize : Nat) (consistency : Consistency)
      (next : Nat) (batch : List CursorNode)
  /-- The records of a child that satisfy every filter. -/
  | filter (child : CursorNode) (tests : List CompiledFilter)
  | limit (child : CursorNode) (remaining : Nat)
deriving Inhabited

namespace CursorNode

/-! ## Leaves -/

/-- The range of keys for the bounds of a scan, if any key can qualify. The ranks from `start` on
and below `stop` are held by the values above the one at rank `start - 1` and up to the one at
rank `stop - 1`. -/
def resolve (v : StoreView) (index : Index) : ScanBounds → Reading (Option KeyRange)
  | .keys range => return some range
  | .ranks start stop => do
    if (ScanBounds.ranks start stop).isEmptyWindow then return none
    let lower ←
      if start = 0 then pure (some Bound.unbounded)
      else do pure ((← v.selectRank index (start - 1)).map Bound.excluded)
    match lower with
    | none => return none
    | some lower =>
      let upper ← match stop with
        | none => pure Bound.unbounded
        | some stop => do
          match ← v.selectRank index (stop - 1) with
          | some value => pure (Bound.included value)
          | none => pure Bound.unbounded
      return some ⟨[], lower, upper⟩

/-- Opens a scan of an index, unless no key can qualify. -/
def openScan (v : StoreView) (index : Index) (bounds : ScanBounds) (consistency : Consistency) :
    Reading (Option (List StoreView.EntryRow)) := do
  match ← resolve v index bounds with
  | none => return none
  | some range => return some (← v.scanIndex index range consistency)

/-- One step of an open scan of records. -/
def stepRecords (v : StoreView) (recordType : String) (consistency : Consistency) :
    List Record → Reading (Pull CursorNode)
  | [] => do
    v.endRows
    return .done
  | r :: rest => return .emit (← v.yieldRow r) (fullScan recordType consistency (some rest))

/-- One step of an open scan of an index. An entry whose record is not found is passed over. -/
def stepEntries (v : StoreView) (index : Index) (bounds : ScanBounds) (covering : Bool)
    (consistency : Consistency) : List StoreView.EntryRow → Reading (Pull CursorNode)
  | [] => do
    v.endRows
    return .done
  | row :: rest => do
    let e ← v.yieldEntry row
    let next := indexScan index bounds covering consistency (some rest)
    if covering then return .emit e.stored next
    else
      match ← v.loadRecord index.recordType e.primaryKey consistency with
      | some r => return .emit r next
      | none => return .busy next

/-! ## Keys of a join -/

/-- The least key of those known. -/
def leastKey : List (List Value × Record) → Option (List Value)
  | [] => none
  | (k, _) :: rest =>
    match leastKey rest with
    | none => some k
    | some l => some (if Value.compareLists l k == .lt then l else k)

/-- What a join does once every head is known: yields the first record if all keys are equal, else
drops the heads with the least key. -/
def joinHeads (heads : List (List Value × Record)) :
    Option Record × List (Option (List Value × Record)) :=
  match heads, leastKey heads with
  | (_, r) :: _, some least =>
    if heads.all (·.1 == least) then (some r, heads.map fun _ => none)
    else (none, heads.map fun h => if h.1 = least then none else some h)
  | _, _ => (none, [])

/-! ## Steps -/

mutual

/-- One step of a node. -/
def step (v : StoreView) : CursorNode → Reading (Pull CursorNode)
  | .fullScan recordType consistency rows => do
    let rows ← match rows with
      | some rows => pure rows
      | none => v.scanRecords recordType consistency
    stepRecords v recordType consistency rows
  | .indexScan index bounds covering consistency rows => do
    let rows ← match rows with
      | some rows => pure (some rows)
      | none => openScan v index bounds consistency
    match rows with
    | some rows => stepEntries v index bounds covering consistency rows
    | none => return .done
  | .chain children dedup => do
    match ← stepHead v children with
    | .done => return .done
    | .busy children => return .busy (.chain children dedup)
    | .emit r children =>
      let (repeated, dedup) := Dedup.check? dedup r
      if repeated then return .busy (.chain children dedup)
      else return .emit r (.chain children dedup)
  | .merge children key dedup heads waiting held => do
    match waiting with
    | i :: rest =>
      match ← stepAt v i children with
      | .done => return .busy (.merge children key dedup heads rest held)
      | .busy children => return .busy (.merge children key dedup heads waiting held)
      | .emit r children =>
        let heads := MergeHead.insert ⟨r.keyAt key, i, r⟩ heads
        return .busy (.merge children key dedup heads rest held)
    | [] =>
      match held with
      | some head =>
        let (repeated, dedup) := Dedup.check? dedup head.record
        if repeated then return .busy (.merge children key dedup heads [] none)
        else return .emit head.record (.merge children key dedup heads [] none)
      | none =>
        match heads with
        | [] => return .done
        | head :: heads =>
          return .busy (.merge children key dedup heads [head.child] (some head))
  | .join children key heads => do
    match heads.findIdx? (·.isNone) with
    | some i =>
      match ← stepAt v i children with
      | .done => return .done
      | .busy children => return .busy (.join children key heads)
      | .emit r children =>
        return .busy (.join children key (heads.set i (some (r.keyAt key, r))))
    | none =>
      match joinHeads (heads.filterMap id) with
      | (some r, heads) => return .emit r (.join children key heads)
      | (none, []) => return .done
      | (none, heads) => return .busy (.join children key heads)
  | .inJoin index values batchSize consistency next batch => do
    match ← stepHead v batch with
    | .emit r batch => return .emit r (.inJoin index values batchSize consistency next batch)
    | .busy batch => return .busy (.inJoin index values batchSize consistency next batch)
    | .done =>
      if values.length ≤ next then return .done
      else
        let stop := min (next + max 1 batchSize) values.length
        let batch := ((values.take stop).drop next).map fun value =>
          .indexScan index (.keys { equal := [value] }) false consistency none
        return .busy (.inJoin index values batchSize consistency stop batch)
  | .filter child tests => do
    match ← step v child with
    | .done => return .done
    | .busy child => return .busy (.filter child tests)
    | .emit r child =>
      if ← CompiledFilter.allAccept v r tests then return .emit r (.filter child tests)
      else return .busy (.filter child tests)
  | .limit child remaining => do
    if remaining = 0 then return .done
    else
      match ← step v child with
      | .done => return .done
      | .busy child => return .busy (.limit child remaining)
      | .emit r child => return .emit r (.limit child (remaining - 1))

/-- One step of the first node of a list; a node at its end makes way for the next one. -/
def stepHead (v : StoreView) : List CursorNode → Reading (Pull (List CursorNode))
  | [] => return .done
  | node :: rest => do
    match ← step v node with
    | .done => return .busy rest
    | .busy node => return .busy (node :: rest)
    | .emit r node => return .emit r (node :: rest)

/-- One step of the node at a place of a list. -/
def stepAt (v : StoreView) : Nat → List CursorNode → Reading (Pull (List CursorNode))
  | _, [] => return .done
  | 0, node :: rest => do
    match ← step v node with
    | .done => return .done
    | .busy node => return .busy (node :: rest)
    | .emit r node => return .emit r (node :: rest)
  | i + 1, node :: rest => do
    match ← stepAt v i rest with
    | .done => return .done
    | .busy rest => return .busy (node :: rest)
    | .emit r rest => return .emit r (node :: rest)

end

/-! ## Work left -/

mutual

/-- More than the number of steps that a node can still make: every step lowers it. -/
def work (v : StoreView) : CursorNode → Nat
  | .fullScan recordType _ none => (v.recordsOf recordType).length + 2
  | .fullScan _ _ (some rows) => rows.length + 1
  | .indexScan index _ _ _ none => v.entryCount index + 2
  | .indexScan _ _ _ _ (some rows) => rows.length + 1
  | .chain children _ => workOfList v children + 1
  | .merge children _ _ heads waiting held =>
    4 * workOfList v children + 3 * heads.length + waiting.length +
      (if held.isSome then 1 else 0) + 1
  | .join children _ heads =>
    2 * workOfList v children + (heads.filter (·.isSome)).length + 1
  | .inJoin index values _ _ next batch =>
    (values.length - next) * (v.entryCount index + 4) + workOfList v batch + 1
  | .filter child _ => child.work v + 1
  | .limit child _ => child.work v + 1

/-- The work of a list of nodes. -/
def workOfList (v : StoreView) : List CursorNode → Nat
  | [] => 0
  | node :: rest => node.work v + 1 + workOfList v rest

end

/-- Steps until there is a record or the end, at most `fuel` times. -/
def pullWithin (v : StoreView) : Nat → CursorNode → Reading (Pull CursorNode)
  | 0, node => return .busy node
  | fuel + 1, node => do
    match ← node.step v with
    | .busy node => pullWithin v fuel node
    | result => return result

/-- The next record of a node, within the steps that its work allows. -/
def pull (v : StoreView) (node : CursorNode) : Reading (Pull CursorNode) :=
  pullWithin v (node.work v) node

end CursorNode

end RecordLayer
