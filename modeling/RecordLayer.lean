import RecordLayer.Cursor.Progress
import RecordLayer.Histogram.Codec
import RecordLayer.Index.Codec
import RecordLayer.Query.Codec
import RecordLayer.RankedSet.Audit
import RecordLayer.Record.Codec
import RecordLayer.Session
import RecordLayer.Settings.Codec
import RecordLayer.Store.Codec
import RecordLayer.Proofs.SortedMap
import RecordLayer.Proofs.Store.Interleaving
import RecordLayer.Proofs.Store.Exchange
import RecordLayer.Proofs.Store.Commit
import RecordLayer.Proofs.Store.Replay
import RecordLayer.Proofs.Store.Serializability
import RecordLayer.Proofs.RankedSet.Arena
import RecordLayer.Proofs.RankedSet.Splice
import RecordLayer.Proofs.Value.Order
import RecordLayer.Proofs.RankedSet.Refinement
import RecordLayer.Proofs.Catalog
import RecordLayer.Proofs.Store.Reachable
import RecordLayer.Proofs.KeyRange
import RecordLayer.Proofs.Store.Serving
import RecordLayer.Proofs.Store.Representation
import RecordLayer.Proofs.Cursor.Drains
import RecordLayer.Proofs.Cursor.Merge
import RecordLayer.Proofs.Cursor.Join
import RecordLayer.Proofs.Filter.Evaluation
import RecordLayer.Proofs.Text.Literal
import RecordLayer.Proofs.Value.Text
import RecordLayer.Proofs.Filter.Normal
import RecordLayer.Proofs.Filter.Prepared
import RecordLayer.Proofs.Index
import RecordLayer.Proofs.Cursor.Windows
import RecordLayer.Proofs.Cursor.Answers
import RecordLayer.Proofs.Plan.Fitting
import RecordLayer.Proofs.Plan.Execution
import RecordLayer.Proofs.Candidates.Making
import RecordLayer.Proofs.Candidates.Generation
import RecordLayer.Proofs.Plan.Building
import RecordLayer.Proofs.Plan.Orders
import RecordLayer.Proofs.Plan.Shapes
import RecordLayer.Proofs.Query
import RecordLayer.Proofs.PlanCache
import RecordLayer.Proofs.Selection
import RecordLayer.Proofs.Delivery
import RecordLayer.Proofs.Record
import RecordLayer.Proofs.Store.Insertion
import RecordLayer.Proofs.Candidates.Orders
import RecordLayer.Proofs.Candidates.Branches
import RecordLayer.Proofs.RankedSet.Runs
import RecordLayer.Proofs.Candidates.Covering
import RecordLayer.Proofs.Selection.History
import RecordLayer.Proofs.Cursor.Faults
import RecordLayer.Proofs.Plan.Preference
import RecordLayer.Proofs.Store.Scanning
import RecordLayer.Proofs.Candidates.Bounds
import RecordLayer.Proofs.Cursor.StableMerge
import RecordLayer.Proofs.Cursor.Exhaustion
import RecordLayer.Proofs.Cursor.Lookups
import RecordLayer.Proofs.Candidates.Fetching
import RecordLayer.Proofs.Filter.NormalForm
import RecordLayer.Proofs.PlanCache.Recency
import RecordLayer.Proofs.Store.Atomicity
import RecordLayer.Proofs.Candidates.WellFormed
import RecordLayer.Proofs.Filter.Expansion
import RecordLayer.Proofs.Histogram.Counting
import RecordLayer.Proofs.Histogram.Cutting
import RecordLayer.Proofs.Statistics.Gathering
import RecordLayer.Proofs.Statistics.Analysis
import RecordLayer.Proofs.Plan.FullScans
import RecordLayer.Proofs.Document.Scanning
import RecordLayer.Proofs.Document.Reading
import RecordLayer.Proofs.Document.Numeral
import RecordLayer.Proofs.Log
import RecordLayer.Proofs.Document.Codec
import RecordLayer.Proofs.Selection.Accounting
import RecordLayer.Proofs.Accounting
import RecordLayer.Proofs.Query.Survival
import RecordLayer.Proofs.Double.Rounding
import RecordLayer.Proofs.Double.Shortest
import RecordLayer.Proofs.Document.Doubles
import RecordLayer.Proofs.RankedSet.Safety
import RecordLayer.Proofs.Value.Hashing
import RecordLayer.Proofs.RowOrder.MergeKeys
