import RecordLayer.Double.Notation

/-!
# Costs

The estimated cost of a plan: input and output, processing, and rows. Every cost is finite and not
negative, and every plan is taken to give at least one row.
-/

namespace RecordLayer

/-- Unit costs, and the shares and sizes assumed where statistics are missing. -/
structure CostConstants where
  /-- Input for each record read in order. -/
  seqRow : Float := 1.0
  /-- Processing for each record. -/
  cpuRow : Float := 0.1
  /-- Input to find a place in an index. -/
  indexSeek : Float := 4.0
  /-- Input for each index entry. -/
  indexRow : Float := 0.5
  /-- Input for each record fetched by its key. -/
  fetch : Float := 1.0
  /-- Processing for each check of a residual filter. -/
  predicate : Float := 0.05
  defaultEqualityShare : Float := 0.005
  defaultRangeShare : Float := 1.0 / 3.0
  defaultTableRows : Float := 1e6
  defaultIndexRows : Float := 1e4
deriving Inhabited

namespace CostConstants

/-- The constants in their usual order. -/
def toList (c : CostConstants) : List Float :=
  [c.seqRow, c.cpuRow, c.indexSeek, c.indexRow, c.fetch, c.predicate, c.defaultEqualityShare,
    c.defaultRangeShare, c.defaultTableRows, c.defaultIndexRows]

end CostConstants

/-- The estimated cost of running a plan. -/
structure QueryCost where
  io : Float
  cpu : Float
  /-- At least one. -/
  rows : Int64
deriving Inhabited

/-- The smaller of two floats; a NaN gives way to the other one. -/
def lesser (a b : Float) : Float := if a.isNaN then b else if b < a then b else a

/-- The larger of two floats; a NaN gives way to the other one. -/
def greater (a b : Float) : Float := if a.isNaN then b else if a < b then b else a

namespace QueryCost

/-- The largest finite float. -/
def maxFloat : Float := Float.ofBits 0x7fefffffffffffff

/-- Cuts a cost at zero, which is never the negative one; what is not finite costs as much as
possible. -/
def nonNegative (x : Float) : Float := if x.isFinite then if 0 < x then x else 0 else maxFloat

/-- The number of rows as an integer: rounded up, at least one, at most the largest integer. -/
def wholeRows (rows : Float) : Int64 :=
  let rows := if rows.isFinite then rows.ceil else 1
  if rows ≤ 1 then 1 else if 9223372036854775807.0 ≤ rows then Int64.maxValue else rows.toInt64

/-- A cost from raw estimates. -/
def ofEstimates (io cpu rows : Float) : QueryCost :=
  ⟨nonNegative io, nonNegative cpu, wholeRows rows⟩

/-- Input and output, plus a tenth of the processing. -/
def total (c : QueryCost) : Float := c.io + 0.1 * c.cpu

end QueryCost

end RecordLayer
