import RecordLayer.Plan
import RecordLayer.Plan.Cost
import RecordLayer.Statistics

/-!
# Estimates

What a plan is expected to cost under the statistics of its record type. Every plan gets an
estimate, whatever the statistics look like: without a histogram the number of distinct values
serves, without that the default share of the constants.
-/

namespace RecordLayer

/-- Raw estimates, not yet rounded. -/
structure Estimate where
  io : Float := 0
  cpu : Float := 0
  rows : Float := 0
deriving Inhabited

/-- What estimates are made from. -/
structure CostModel where
  constants : CostConstants
  snapshot : StatisticsSnapshot

namespace CostModel

/-- The assumed number of rows of the table. -/
def tableRows (m : CostModel) : Float :=
  match m.snapshot.rowCount? with
  | some n => n.toFloat
  | none => m.constants.defaultTableRows

/-- The share of records whose field equals a value. -/
def equalityShare (m : CostModel) (field : String) (v : Value) : Float :=
  match m.snapshot.fieldHistogram? field with
  | some h => h.equalityShare v
  | none =>
    match m.snapshot.distinct? field with
    | some d => if 0 < d then 1 / d.toFloat else m.constants.defaultEqualityShare
    | none => m.constants.defaultEqualityShare

/-- The share of records whose field lies within bounds. -/
def rangeShare (m : CostModel) (field : String) (lower upper : Bound) : Float :=
  match m.snapshot.fieldHistogram? field with
  | some h => h.rangeShare lower upper
  | none => m.constants.defaultRangeShare

/-- The share of records that a comparison with a value accepts. -/
def comparisonShare (m : CostModel) (field : String) (op : Comparator) (v : Value) : Float :=
  match op with
  | .eq => m.equalityShare field v
  | .ne => 1 - m.equalityShare field v
  | .lt => m.rangeShare field .unbounded (.excluded v)
  | .le => m.rangeShare field .unbounded (.included v)
  | .gt => m.rangeShare field (.excluded v) .unbounded
  | .ge => m.rangeShare field (.included v) .unbounded

/-- The share of records whose rank a comparison accepts. -/
def rankShare (m : CostModel) (op : Comparator) (rank : UInt64) : Float :=
  let known := m.snapshot.rowCount?.filter (0 < ·)
  match known with
  | none =>
    match op with
    | .eq => m.constants.defaultEqualityShare
    | .ne => 1 - m.constants.defaultEqualityShare
    | _ => m.constants.defaultRangeShare
  | some n =>
    let n := n.toFloat
    let r := rank.toFloat
    match op with
    | .eq => 1 / n
    | .ne => 1 - 1 / n
    | .lt => r / n
    | .le => (r + 1) / n
    | .gt => 1 - (r + 1) / n
    | .ge => 1 - r / n

mutual

/-- The share of records that satisfy a filter, conditions taken as independent. -/
def share (m : CostModel) : Filter → Float
  | .compare field op v => clampUnit (m.comparisonShare field op v)
  | .oneOf field values =>
    clampUnit (values.foldl (fun sum v => sum + m.equalityShare field v) 0)
  | .rank _ op rank => clampUnit (m.rankShare op rank)
  | .not child => clampUnit (1 - m.share child)
  | .all children => clampUnit (m.shareOfAll 1 children)
  | .any children => clampUnit (1 - m.shareOfNone 1 children)

/-- Multiplies the shares of a list onto `acc`. -/
def shareOfAll (m : CostModel) (acc : Float) : List Filter → Float
  | [] => acc
  | f :: rest => m.shareOfAll (acc * m.share f) rest

/-- Multiplies the shares of the negations of a list onto `acc`. -/
def shareOfNone (m : CostModel) (acc : Float) : List Filter → Float
  | [] => acc
  | f :: rest => m.shareOfNone (acc * (1 - m.share f)) rest

end

/-- The rows that a scan of an index gives. -/
def scanRows (m : CostModel) (scan : IndexScan) : Float :=
  let n := m.tableRows
  match scan.bounds with
  | .ranks start stop =>
    let stop := match stop with
      | some stop => lesser stop.toFloat n
      | none => n
    greater (stop - lesser start.toFloat n) 0
  | .keys range =>
    let key := scan.index.keyFields
    if scan.index.unique ∧ range.equal.length = key.length ∧ !range.hasRange then 1
    else
      let share := (key.zip range.equal).foldl
        (fun acc (field, v) => acc * m.equalityShare field v) 1
      let share :=
        if range.hasRange then
          match key[range.equal.length]? with
          | some field => share * m.rangeShare field range.lower range.upper
          | none => share
        else share
      n * share

/-- The estimate for a scan of an index. -/
def indexScan (m : CostModel) (scan : IndexScan) : Estimate :=
  let c := m.constants
  match m.snapshot.table with
  | none =>
    let r := c.defaultIndexRows
    ⟨r * c.seqRow, r * c.cpuRow, r⟩
  | some _ =>
    let rows := m.scanRows scan
    let fetch := if scan.covering then 0 else rows * c.fetch
    ⟨c.indexSeek + rows * c.indexRow + fetch, rows * c.cpuRow, rows⟩

/-- The estimate for an intersection of estimated children. -/
def intersect (m : CostModel) (children : List Estimate) : Estimate :=
  let n := m.tableRows
  let step (acc : Estimate) (e : Estimate) : Estimate :=
    let share := if 0 < n then lesser (e.rows / n) 1 else m.constants.defaultEqualityShare
    ⟨acc.io + e.io, acc.cpu + e.cpu, acc.rows * share⟩
  let sum := children.foldl step ⟨0, 0, 1⟩
  { sum with rows := n * sum.rows }

/-- The rows that two different inputs have in common, over all pairs, added onto `acc`. -/
def pairOverlap (n : Float) (acc : Float) : List Float → Float
  | [] => acc
  | a :: rest => pairOverlap n (rest.foldl (fun acc b => acc + a * b / n) acc) rest

/-- The estimate for a union of estimated children. -/
def unite (m : CostModel) (dedup : Bool) (children : List Estimate) : Estimate :=
  let n := m.tableRows
  let io := children.foldl (fun acc e => acc + e.io) 0
  let cpu := children.foldl (fun acc e => acc + e.cpu) 0
  let rows := children.map (·.rows)
  let sum := rows.foldl (· + ·) 0
  let largest := rows.foldl greater 0
  let total :=
    if dedup ∧ 0 < n then
      lesser (greater (sum - pairOverlap n 0 rows) largest) (greater n largest)
    else sum
  ⟨io, cpu + total * m.constants.cpuRow, total⟩

/-- The estimate for look-ups of values in an index. -/
def join (m : CostModel) (field : String) (values : List Value) (index : Index) : Estimate :=
  let c := m.constants
  let single := m.snapshot.table.isSome ∧ index.unique ∧ index.keyFields.length = 1
  let step (acc : Estimate) (v : Value) : Estimate :=
    let rows := if single then 1 else m.tableRows * m.equalityShare field v
    { acc with
      io := acc.io + (c.indexSeek + rows * (c.indexRow + c.fetch))
      rows := acc.rows + rows }
  let sum := values.foldl step {}
  { sum with cpu := sum.rows * c.cpuRow }

/-- The estimate for a limit on an estimated plan. -/
def cutTo (count : Nat) (e : Estimate) : Estimate :=
  if e.rows ≤ 0 then {}
  else
    let count := count.toUInt64.toFloat
    let fraction := lesser (count / e.rows) 1
    ⟨e.io * fraction, e.cpu * fraction, lesser e.rows count⟩

mutual

/-- The raw estimates for a plan. -/
def estimateNode (m : CostModel) : Plan → Estimate
  | .fullScan _ =>
    let n := m.tableRows
    ⟨n * m.constants.seqRow, n * m.constants.cpuRow, n⟩
  | .indexScan scan => m.indexScan scan
  | .union children dedup _ => m.unite dedup.isSome (m.estimateList children)
  | .intersection children _ => m.intersect (m.estimateList children)
  | .inJoin field values index _ => m.join field values index
  | .filter child residual =>
    let e := m.estimateNode child
    ⟨e.io, e.cpu + e.rows * m.constants.predicate, e.rows * m.share residual⟩
  | .limit child count => cutTo count (m.estimateNode child)

/-- The raw estimates for each plan of a list. -/
def estimateList (m : CostModel) : List Plan → List Estimate
  | [] => []
  | p :: rest => m.estimateNode p :: m.estimateList rest

end

/-- The cost of a plan. -/
def estimate (m : CostModel) (p : Plan) : QueryCost :=
  let e := m.estimateNode p
  .ofEstimates e.io e.cpu e.rows

end CostModel

end RecordLayer
