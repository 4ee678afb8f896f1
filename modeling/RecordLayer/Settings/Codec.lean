import RecordLayer.Document.Codec
import RecordLayer.Log.Event
import RecordLayer.Settings

/-!
# Settings as documents

Every setting may be left out and then has its default.
-/

namespace RecordLayer

variable (format : Document.Format)

/-- Cost constants as documents. -/
def CostConstants.codec : Codec CostConstants where
  encode c := .ofMembers (names.zip (c.toList.map (Codec.float format).encode))
  decode limit d := do
    let fields ← Codec.Fields.ofDocument names limit d
    let read name (default : Float) := fields.optional name (.float format) default
    let standard : CostConstants := {}
    return {
      seqRow := ← read "seq_row_cost" standard.seqRow
      cpuRow := ← read "cpu_row_cost" standard.cpuRow
      indexSeek := ← read "index_seek_cost" standard.indexSeek
      indexRow := ← read "index_row_cost" standard.indexRow
      fetch := ← read "fetch_cost" standard.fetch
      predicate := ← read "predicate_cost" standard.predicate
      defaultEqualityShare := ← read "default_equality_selectivity" standard.defaultEqualityShare
      defaultRangeShare := ← read "default_range_selectivity" standard.defaultRangeShare
      defaultTableRows := ← read "default_table_rows" standard.defaultTableRows
      defaultIndexRows := ← read "default_index_rows" standard.defaultIndexRows }
where
  names : List String := ["seq_row_cost", "cpu_row_cost", "index_seek_cost", "index_row_cost",
    "fetch_cost", "predicate_cost", "default_equality_selectivity", "default_range_selectivity",
    "default_table_rows", "default_index_rows"]

/-- Bounds on preparing a filter as documents. -/
def Filter.Limits.codec : Codec Filter.Limits where
  encode l := .ofMembers [("max_dnf_terms", (Codec.nat format).encode l.maxTerms),
    ("max_depth", (Codec.nat format).encode l.maxDepth)]
  decode limit d := do
    let fields ← Codec.Fields.ofDocument ["max_dnf_terms", "max_depth"] limit d
    let standard : Filter.Limits := {}
    return {
      maxTerms := ← fields.optional "max_dnf_terms" (.nat format) standard.maxTerms
      maxDepth := ← fields.optional "max_depth" (.nat format) standard.maxDepth }

namespace PlannerSettings

/-- The names of the settings in order. -/
def names : List String := ["max_dnf_terms", "max_depth", "max_candidate_plans", "max_in_values",
  "in_join_batch_size", "plan_cache_capacity", "allow_full_scan", "log_level", "cost"]

/-- Settings as documents. -/
def codec : Codec PlannerSettings where
  encode s :=
    let count := (Codec.nat format).encode
    .ofMembers [("max_dnf_terms", count s.maxDnfTerms), ("max_depth", count s.maxDepth),
      ("max_candidate_plans", count s.maxCandidates), ("max_in_values", count s.maxInValues),
      ("in_join_batch_size", count s.inJoinBatch), ("plan_cache_capacity", count s.cacheCapacity),
      ("allow_full_scan", .bool s.allowFullScan), ("log_level", .ofString s.logLevel),
      ("cost", (CostConstants.codec format).encode s.cost)]
  decode limit d := do
    let fields ← Codec.Fields.ofDocument names limit d
    let standard : PlannerSettings := {}
    let count name (default : Nat) := fields.optional name (.nat format) default
    return {
      maxDnfTerms := ← count "max_dnf_terms" standard.maxDnfTerms
      maxDepth := ← count "max_depth" standard.maxDepth
      maxCandidates := ← count "max_candidate_plans" standard.maxCandidates
      maxInValues := ← count "max_in_values" standard.maxInValues
      inJoinBatch := ← count "in_join_batch_size" standard.inJoinBatch
      cacheCapacity := ← count "plan_cache_capacity" standard.cacheCapacity
      allowFullScan := ← fields.optional "allow_full_scan" .bool standard.allowFullScan
      logLevel := ← fields.optional "log_level" .text standard.logLevel
      cost := ← fields.optional "cost" (CostConstants.codec format) standard.cost }

/-- Reads settings from JSON text and checks them. -/
def parse (text : String) : Except PlanningError PlannerSettings :=
  match format.parse (codec format) text with
  | none => .error (.invalidConfig .malformed)
  | some s => do
    s.validate
    return s

/-- Takes the content of a settings file, if it could be read, and logs the settings in force. -/
def load (path : String) (content : Option String) (log : Log) :
    Except PlanningError PlannerSettings × Log :=
  match content with
  | none => (.error (.invalidConfig .unreadable), log)
  | some text =>
    match parse format text with
    | .error e => (.error e, log)
    | .ok s => (.ok s, log.add (Event.configLoaded.entry (s.loadedFields path)))

end PlannerSettings

end RecordLayer
