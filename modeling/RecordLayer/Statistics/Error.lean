/-!
# Statistics errors

Why collected statistics are not used. None of these fails a query: estimates fall back to defaults.
-/

namespace RecordLayer

/-- What is wrong with a histogram. -/
inductive HistogramFault
  | lowerAboveUpper (bucket : Nat)
  | moreDistinctThanRows (bucket : Nat)
  | rowsWithoutDistinct (bucket : Nat)
  | mixedKinds (bucket : Nat)
  | overlap (bucket : Nat)
deriving DecidableEq

namespace HistogramFault

/-- The fault in words. -/
def reason : HistogramFault → String
  | lowerAboveUpper i => s!"bucket {i} has lower above upper"
  | moreDistinctThanRows i => s!"bucket {i} has more distinct values than rows"
  | rowsWithoutDistinct i => s!"bucket {i} has rows but no distinct values"
  | mixedKinds i => s!"bucket {i} mixes value types"
  | overlap i => s!"buckets {i} and {i + 1} overlap"

end HistogramFault

/-- Statistics that cannot be used. -/
inductive StatisticsError
  | corruptHistogram (index : String) (fault : HistogramFault)
  | histogramTypeMismatch (index expected actual : String)
  | tooManyDistinct (recordType field : String) (distinct rows : UInt64)
  | unavailable (subject : String)
deriving DecidableEq

namespace StatisticsError

/-- The index or record type that the statistics describe. -/
def subject : StatisticsError → String
  | corruptHistogram index _ | histogramTypeMismatch index .. => index
  | tooManyDistinct recordType .. => recordType
  | unavailable _ => ""

/-- The error in words. -/
def message : StatisticsError → String
  | corruptHistogram index fault => s!"histogram for index '{index}' is corrupt: {fault.reason}"
  | histogramTypeMismatch index expected actual =>
    s!"histogram for index '{index}' holds {actual} bounds, field is {expected}"
  | tooManyDistinct recordType field distinct rows =>
    s!"table statistics for '{recordType}' are corrupt: field '{field}' has {distinct.toNat} " ++
      s!"distinct values in {rows.toNat} rows"
  | unavailable subject => s!"statistics unavailable: {subject}"

end StatisticsError

end RecordLayer
