import RecordLayer.KeyRange
import RecordLayer.Statistics.Error

/-!
# Histograms

A histogram describes how the values of a field are spread: buckets that do not overlap, each with
the number of rows and of distinct values in it. Rows are assumed to be spread evenly over the
distinct values of a bucket, and over its width where the bounds are numbers.
-/

namespace RecordLayer

/-- The rows with values from `lower` to `upper`, both included. -/
structure Bucket where
  lower : Value
  upper : Value
  count : UInt64
  distinctCount : UInt64
deriving DecidableEq, Inhabited

/-- How many buckets a list can make room for: each takes 64 bytes, and the bytes of a list are
counted by a signed integer. -/
def Bucket.room : Nat := Int64.maxValue.toNatClampNeg / 64

/-- A float cut to the interval from zero to one. -/
def clampUnit (x : Float) : Float := if x < 0 then 0 else if 1 < x then 1 else x

namespace Bucket

/-- Whether the bucket holds a value between its bounds. -/
def covers (b : Bucket) (v : Value) : Bool := b.lower.le v && v.le b.upper

/-- Whether no value of the bucket can satisfy the bounds. -/
def isOutside (b : Bucket) (lower upper : Bound) : Bool :=
  !lower.admitsAbove b.upper || !upper.admitsBelow b.lower

/-- Whether every value of the bucket satisfies the bounds. -/
def isInside (b : Bucket) (lower upper : Bound) : Bool :=
  lower.admitsAbove b.lower && upper.admitsBelow b.upper

/-- The share of the bucket that lies within the bounds, by the width of the numbers. -/
def overlap (b : Bucket) (lower upper : Bound) : Float :=
  if b.isOutside lower upper then 0
  else if b.isInside lower upper then 1
  else
    match b.lower.toFloat?, b.upper.toFloat? with
    | some bl, some bu =>
      let width := bu - bl
      if width ≤ 0 then 1
      else
        let low := match lower.value?.bind Value.toFloat? with
          | some l => if l < bl then bl else l
          | none => bl
        let high := match upper.value?.bind Value.toFloat? with
          | some u => if bu < u then bu else u
          | none => bu
        clampUnit ((high - low) / width)
    | _, _ => 0.5

end Bucket

/-- Buckets in ascending order. -/
structure Histogram where
  buckets : List Bucket := []
deriving DecidableEq, Inhabited

namespace Histogram

/-- The values of one bucket in front of the rest: `depth` of them, and then all that equal the last
one. -/
def splitBucket (depth : Nat) (values : List Value) : List Value × List Value :=
  let first := values.take depth
  let rest := values.drop depth
  match first.getLast? with
  | none => (first, rest)
  | some last => (first ++ rest.takeWhile (· == last), rest.dropWhile (· == last))

/-- How often neighbours in a list differ. -/
def changes : List Value → Nat
  | a :: b :: rest => (if a = b then 0 else 1) + changes (b :: rest)
  | _ => 0

/-- The bucket of a non-empty run of ascending values. -/
def bucketOf (values : List Value) : Bucket :=
  ⟨values.headD .null, values.getLastD .null, values.length.toUInt64,
    (1 + changes values).toUInt64⟩

/-- Cuts values into buckets of `depth` values, at most `fuel` of them. -/
def cut (depth : Nat) : Nat → List Value → List Bucket
  | 0, _ => []
  | _, [] => []
  | fuel + 1, values =>
    let (bucket, rest) := splitBucket depth values
    bucketOf bucket :: cut depth fuel rest

/-- How many values a bucket takes at least, so that `count` buckets are enough. -/
def depthFor (values : List Value) (count : Nat) : Nat :=
  max 1 ((values.length + count - 1) / count)

/-- Cuts ascending values into at most `count` buckets of about equal size. Equal values stay in one
bucket. -/
def equiDepth (values : List Value) (count : Nat) : Histogram :=
  if count = 0 then ⟨[]⟩ else ⟨cut (depthFor values count) values.length values⟩

/-- The histogram of ascending values. Before any value is looked at, a list makes room for as many
buckets as are asked for, however few will be needed. There is no histogram if they are more than
`room`: the program cannot go on. -/
def ofSorted (room : Nat) (values : List Value) (count : Nat) : Option Histogram :=
  if values.isEmpty ∨ count = 0 then some {}
  else if room < count then none
  else some (equiDepth values count)

/-- How many rows the histogram describes. -/
def total (h : Histogram) : UInt64 := h.buckets.foldl (fun n b => n + b.count) 0

/-- The kind of the first bound that is not the null. -/
def kind? (h : Histogram) : Option Value.Kind :=
  ((h.buckets.flatMap fun b => [b.lower, b.upper]).find? (!·.isNull)).map Value.kind

/-- What is wrong with a bucket by itself. -/
def bucketFault (kind : Option Value.Kind) (i : Nat) (b : Bucket) : Option HistogramFault :=
  if b.upper.lt b.lower then some (.lowerAboveUpper i)
  else if b.count < b.distinctCount then some (.moreDistinctThanRows i)
  else if 0 < b.count ∧ b.distinctCount = 0 then some (.rowsWithoutDistinct i)
  else if [b.lower, b.upper].any fun v => !v.isNull && some v.kind != kind then
    some (.mixedKinds i)
  else none

/-- The first fault of a bucket by itself, counting from `i`. -/
def firstBucketFault (kind : Option Value.Kind) (i : Nat) : List Bucket → Option HistogramFault
  | [] => none
  | b :: rest => (bucketFault kind i b).or (firstBucketFault kind (i + 1) rest)

/-- The first bucket that does not end below the next one, counting from `i`. -/
def firstOverlap (i : Nat) : List Bucket → Option HistogramFault
  | a :: b :: rest =>
    if a.upper.lt b.lower then firstOverlap (i + 1) (b :: rest) else some (.overlap i)
  | _ => none

/-- What is wrong with the histogram. -/
def fault? (h : Histogram) : Option HistogramFault :=
  (firstBucketFault h.kind? 0 h.buckets).or (firstOverlap 0 h.buckets)

/-- Checks the buckets of the histogram of an index. -/
def validate (h : Histogram) (index : String) : Except StatisticsError Unit :=
  match h.fault? with
  | some fault => .error (.corruptHistogram index fault)
  | none => .ok ()

/-- The estimated share of rows that equal a value. -/
def equalityShare (h : Histogram) (v : Value) : Float :=
  if h.total = 0 then 0
  else
    match h.buckets.find? (·.covers v) with
    | none => 0
    | some b => b.count.toFloat / (max 1 b.distinctCount).toFloat / h.total.toFloat

/-- The estimated share of rows within bounds. -/
def rangeShare (h : Histogram) (lower upper : Bound) : Float :=
  if h.total = 0 then 0
  else
    let rows := h.buckets.foldl (fun sum b => sum + b.count.toFloat * b.overlap lower upper) 0.0
    clampUnit (rows / h.total.toFloat)

end Histogram

end RecordLayer
