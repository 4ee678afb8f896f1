import Mathlib.Data.List.Forall2
import RecordLayer.Proofs.Candidates.Covering
import RecordLayer.Proofs.Delivery
import RecordLayer.Proofs.Store.Representation

/-!
# Covering scans agree with fetching scans

A covering scan saves the look-up of each record and gives what the entry of the index carries: the
fields that the index stores and the primary key, and `Null` in all other fields. A candidate with a
covering scan is one matched scan under the residual of the other conjuncts and the limit. If the
scan fetches its records instead, it finds the same rows in the same order; the residual reads
stored fields only, so it passes the same rows; and the limit cuts at the same place. So both
executions give the same primary keys, and records that agree on all that the caller reads.

The two sides never meet in one execution: planning decides what a scan may leave out, the store
fills in what it carries. What ties them together is `Index.valueOf_project`.
-/

namespace RecordLayer

namespace Plan

/-! ## Fetching instead of covering -/

mutual

/-- The same plan, all of whose scans fetch their records. -/
def fetching : Plan → Plan
  | .fullScan recordType => .fullScan recordType
  | .indexScan scan => .indexScan { scan with covering := false }
  | .union children dedup merge => .union (fetchingEach children) dedup merge
  | .intersection children merge => .intersection (fetchingEach children) merge
  | .inJoin field values index batchSize => .inJoin field values index batchSize
  | .filter child residual => .filter child.fetching residual
  | .limit child count => .limit child.fetching count

/-- The same plans, all of whose scans fetch their records. -/
def fetchingEach : List Plan → List Plan
  | [] => []
  | p :: rest => p.fetching :: fetchingEach rest

end

theorem fetching_withResidual (p : Plan) (f : Filter) :
    (p.withResidual f).fetching = p.fetching.withResidual f := by
  unfold withResidual
  split
  · rfl
  · rw [fetching]

theorem fetching_withLimit (p : Plan) (limit : Option Nat) :
    (p.withLimit limit).fetching = p.fetching.withLimit limit := by
  cases limit with
  | none => rfl
  | some n => rw [withLimit, withLimit, fetching]

open CursorNode

/-- **Which rows a scan picks does not depend on what it makes of them,** under a residual that
cannot tell the difference and under a limit. -/
theorem exists_picked {c : ExecutionContext} {v : StoreView} {t : RecordType} {rows : List Record}
    (ho : c.Over v t) (h : v.Serves t rows) (hc : v.catalog.Sound) {scan : IndexScan}
    (hindex : scan.index ∈ v.catalog.plannableIndexes t.name)
    (hrank : scan.bounds.isRanks = true → scan.index.isRank = true) {rest : Filter}
    {test : CompiledFilter} (htest : c.compile rest = .ok test)
    (hread : ∀ covering, ∀ r ∈ rows,
      rest.holds (t.valueOf (imageOf t scan.index covering r)) (rankAmong t rows) =
        rest.holds (t.valueOf r) (rankAmong t rows)) (limit : Option Nat) :
    ∃ picked : List Record, (∀ r ∈ picked, r ∈ rows) ∧
      ∀ covering, (((Plan.indexScan { scan with covering }).withResidual rest).withLimit
        limit).Makes c v (imageOf t scan.index covering) picked := by
  generalize hfound : (scan.index.sorted t rows).filter (scan.finds t rows) = found
  have hrows : ∀ r ∈ found, r ∈ rows := by
    rw [← hfound]
    intro r hr
    exact (scan.index.sorted_perm t rows).mem_iff.1 (List.mem_filter.1 hr).1
  generalize hpassed : found.filter (fun r => rest.holds (t.valueOf r) (rankAmong t rows)) = passed
  refine ⟨passed.take (limit.getD passed.length), fun r hr => ?_, fun covering => ?_⟩
  · have hr := List.mem_of_mem_take hr
    rw [← hpassed] at hr
    exact hrows r (List.mem_filter.1 hr).1
  · have hscan : (Plan.indexScan { scan with covering }).Makes c v (imageOf t scan.index covering)
        found := by
      rw [← hfound]
      exact makes_indexScan ho h hc hindex hrank
    rw [← hpassed]
    exact (hscan.withResidual ho h hc htest fun r hr =>
      hread covering r (hrows r hr)).withLimit limit

end Plan

namespace PlanningContext

open CursorNode

variable {c : PlanningContext} {p : Plan}

/-! ## Candidates with a covering scan -/

/-- **A candidate with a covering scan is one matched scan,** under the residual of the other
conjuncts and the limit of the query. -/
theorem eq_scanPlan_of_covering (hc : c.catalog.Sound)
    (ht : c.catalog.recordType? c.recordType.name = some c.recordType) {q : Query}
    {prepared : Filter.Prepared} (h : p ∈ (c.generate prepared q).1) {scan : IndexScan}
    (hpart : (Plan.indexScan scan).IsPartOf p) (hcovering : scan.covering = true) :
    ∃ m, c.Matches prepared.filter.conjuncts m ∧
      p = (c.scanPlan prepared.filter.conjuncts q.requiredFields m).withLimit q.limit ∧
      c.isCovering m.scan.index (residual prepared.filter.conjuncts m.used) q.requiredFields =
        true := by
  obtain ⟨base, rfl, hbase⟩ := generate_cases h
  have hsome : ¬base.Covers c.recordType none := fun hnone => by
    obtain ⟨fields, hfields, -⟩ := hnone.withLimit q.limit scan hpart hcovering
    cases hfields
  have hscan : ∀ m, c.Matches prepared.filter.conjuncts m →
      base = c.scanPlan prepared.filter.conjuncts q.requiredFields m →
      ∃ m, c.Matches prepared.filter.conjuncts m ∧
        base.withLimit q.limit =
          (c.scanPlan prepared.filter.conjuncts q.requiredFields m).withLimit q.limit ∧
        c.isCovering m.scan.index (residual prepared.filter.conjuncts m.used) q.requiredFields =
          true := by
    rintro m hm rfl
    refine ⟨m, hm, rfl, Bool.of_not_eq_false fun hfetching => hsome ?_⟩
    rw [scanPlan, hfetching]
    exact (Plan.covers_indexScan fun hcovering => by cases hcovering).withResidual _
  -- every other way to make a plan makes one without covering scans
  rcases hbase with hmade | ⟨-, rfl⟩ | ⟨g, -, hunion⟩
  · have huncovered : ¬c.Made prepared.filter.conjuncts none base := fun hmade =>
      hsome (hmade.covers fun g _ => (branch_covers g).2)
    cases hmade with
    | point hindex _ hm _ => exact hscan _ (matches_value hindex hm) rfl
    | scan hindex hm => exact hscan _ (matches_index hc ht hindex hm) rfl
    | lookUps hi hindex hlead htwo hmany =>
      exact absurd (.lookUps hi hindex hlead htwo hmany) huncovered
    | intersection hscans htwo hdisjoint =>
      exact absurd (.intersection hscans htwo hdisjoint) huncovered
    | union hi hq => exact absurd (.union hi hq) huncovered
  · exact absurd ((Plan.covers_fullScan _).withResidual _) hsome
  · exact absurd ((branch_covers g).2 base hunion) hsome

/-- **Covering scans agree with fetching scans.** Take any candidate with a covering scan, for a
valid query that reads some fields only, and the same plan with scans that fetch their records. Over
whatever can be seen of a store, both give the same primary keys in the same order, and records that
agree on the primary key and on each field that the caller reads. -/
theorem covering_agrees {catalog : Catalog} (hc : catalog.Registered) {v : StoreView}
    (hv : v.Reachable catalog) {q : Query} {t : RecordType} (hvalid : q.validate catalog = .ok t)
    {required : List String} (hrequired : q.requiredFields = some required)
    {limits : Filter.Limits} {prepared : Filter.Prepared}
    (hprepared : q.filter.prepare limits = .ok prepared) {snapshot : StatisticsSnapshot}
    {settings : PlannerSettings}
    (hp : p ∈ (generate ⟨catalog, t, snapshot, settings⟩ prepared q).1) {scan : IndexScan}
    (hpart : (Plan.indexScan scan).IsPartOf p) (hcovering : scan.covering = true)
    {consistency : Consistency} {requestId : String} {c : ExecutionContext}
    (hcreate : ExecutionContext.create catalog t.name consistency requestId = .ok c) :
    ∃ covered fetched, p.Yields c v covered ∧ p.fetching.Yields c v fetched ∧
      covered.map t.keyOf = fetched.map t.keyOf ∧
      List.Forall₂ (fun a b => ∀ f, f = t.primaryKey ∨ f ∈ required → t.valueOf a f = t.valueOf b f)
        covered fetched := by
  obtain ⟨-, ht, hknown⟩ := Query.validate_spec hvalid
  have hserves := hv.serves hc.sound ht
  have hcatalog := hv.catalog_eq hc.sound
  have ho := ExecutionContext.over_of_create hcatalog ht hcreate
  obtain ⟨hnormal, -⟩ := Filter.prepare_spec hprepared
  have hconjuncts : ∀ f ∈ prepared.filter.conjuncts, f.Known catalog t :=
    conjuncts_known (c := ⟨catalog, t, snapshot, settings⟩)
      (hnormal ▸ Filter.normalize_over hknown)
  obtain ⟨m, hm, rfl, hcover⟩ := eq_scanPlan_of_covering hc.sound ht hp hpart hcovering
  obtain ⟨fields, hfields, hstored⟩ := read_of_isCovering hcover
  obtain rfl : required = fields := Option.some.inj (hrequired.symm.trans hfields)
  generalize hrest : residual prepared.filter.conjuncts m.used = rest at hstored
  -- the entry carries what the residual and the caller read
  have hread : ∀ covering, ∀ r ∈ v.recordsOf t.name, ∀ f,
      f = t.primaryKey ∨ f ∈ required ++ rest.fields →
        t.valueOf (imageOf t m.scan.index covering r) f = t.valueOf r f := by
    intro covering r hr f hf
    cases covering with
    | true => exact Index.valueOf_project (hserves.valid r hr) (hf.elim .inl (hstored f))
    | false => rfl
  obtain ⟨test, htest⟩ : ∃ test, c.compile rest = .ok test := by
    refine ExecutionContext.compile_ok ho ?_
    rw [hcatalog, ← hrest]
    exact residual_over hconjuncts
  -- so both executions pick the same rows
  obtain ⟨picked, hpicked, hmakes⟩ :
      ∃ picked : List Record, (∀ r ∈ picked, r ∈ v.recordsOf t.name) ∧
      ∀ covering, (((Plan.indexScan { m.scan with covering }).withResidual rest).withLimit
        q.limit).Makes c v (imageOf t m.scan.index covering) picked := by
    refine Plan.exists_picked ho hserves (hcatalog ▸ hc.sound) (hcatalog ▸ hm.index) hm.rank htest
      (fun covering r hr => ?_) q.limit
    have hover :
        rest.Over (fun f => t.valueOf (imageOf t m.scan.index covering r) f = t.valueOf r f)
          fun _ => True := Filter.over_of_fields
      (fun f hf => hread covering r hr f (.inr (List.mem_append_right _ hf))) fun _ _ => trivial
    exact hover.holds_congr fun f hf => hf
  refine ⟨picked.map (imageOf t m.scan.index true), picked.map (imageOf t m.scan.index false),
    ?_, ?_, ?_, ?_⟩
  · rw [scanPlan, hcover, hrest]
    exact (hmakes true).yields
  · rw [Plan.fetching_withLimit, scanPlan, Plan.fetching_withResidual, hrest, Plan.fetching]
    exact (hmakes false).yields
  · rw [List.map_map, List.map_map]
    refine List.map_congr_left fun r hr => ?_
    have hkey := hread true r (hpicked r hr) t.primaryKey (.inl rfl)
    rwa [RecordType.valueOf_primaryKey, RecordType.valueOf_primaryKey] at hkey
  · rw [List.forall₂_map_left_iff, List.forall₂_map_right_iff, List.forall₂_same]
    intro r hr f hf
    exact hread true r (hpicked r hr) f (hf.imp_right (List.mem_append_left _))

end PlanningContext

/-! ## A field that no entry carries -/

namespace Visits

/-- Guests are visitors who stay for some days. -/
def guest : RecordType where
  name := "g"
  fields := [⟨"id", .int, true⟩, ⟨"age", .int, false⟩, ⟨"days", .int, false⟩]
  primaryKey := "id"
  names_nodup := by decide
  primaryKey_mem := by decide

/-- The guests by age. -/
def guestAge : Index := ⟨"guest_age", "g", ["age"], false, .value, []⟩

def guestBook : Catalog := ⟨[guest], [guestAge]⟩

theorem guestBook_registered : Catalog.Registered guestBook :=
  .index (i := guestAge) (.type (t := guest) .empty rfl) rfl

/-- Three guests, the one with the largest number oldest. -/
def guests : List Record :=
  [⟨[.int 1, .int 20, .int 3]⟩, ⟨[.int 2, .int 30, .int 5]⟩, ⟨[.int 3, .int 40, .int 2]⟩]

/-- The state in which the guests are stored. -/
def guestStore : Store :=
  match Store.insertAll { catalog := guestBook } "g" guests with
  | .ok store => store
  | .error _ => { catalog := guestBook }

theorem guestStore_reachable : guestStore.Reachable guestBook := by
  unfold guestStore
  cases h : Store.insertAll { catalog := guestBook } "g" guests with
  | ok s => exact Store.reachable_of_insertAll h
  | error e => exact Store.reachable_empty guestBook

/-- The query for the age of one guest above twenty, who is not the second one. -/
def older : Query :=
  { recordType := "g", filter := .all [.compare "age" .gt (.int 20), .compare "id" .ne (.int 2)],
    limit := some 1, requiredFields := some ["age"] }

theorem older_valid : older.validate guestBook = .ok guest := by
  refine Query.validate_eq_ok.2 ⟨rfl, by decide, ?_, ?_⟩
  · simp [older, Filter.fields, Filter.nodes, Filter.nodesOfList, Text.mem_sortDistinct]
    rintro f ((rfl | rfl) | rfl) <;> rfl
  · simp [older, Filter.rankFields, Filter.nodes, Filter.nodesOfList, Text.mem_sortDistinct]

/-- The covering scan of the ages above twenty. -/
def olderScan : IndexScan :=
  ⟨guestAge, .keys { lower := .excluded (.int 20) }, true, [.compare "age" .gt (.int 20)]⟩

/-- The scan under the condition on the number, which every entry carries, and the limit. -/
def olderPlan : Plan :=
  .limit (.filter (.indexScan olderScan) (.compare "id" .ne (.int 2))) 1

/-- Entries do not carry the days of a guest, so the records differ there. -/
theorem covering_agrees_older : Catalog.Registered guestBook ∧
    guestStore.view.Reachable guestBook ∧ older.validate guestBook = .ok guest ∧
    older.requiredFields = some ["age"] ∧
    ∃ prepared c, older.filter.prepare planner.settings.limits = .ok prepared ∧
      olderPlan ∈
        (PlanningContext.generate ⟨guestBook, guest, {}, planner.settings⟩ prepared older).1 ∧
      (Plan.indexScan olderScan).IsPartOf olderPlan ∧ olderScan.covering = true ∧
      ExecutionContext.create guestBook guest.name .serializable "" = .ok c ∧
      ∃ covered fetched, olderPlan.Yields c guestStore.view covered ∧
        olderPlan.fetching.Yields c guestStore.view fetched ∧
        covered.map guest.keyOf = fetched.map guest.keyOf ∧
        covered = [⟨[.int 3, .int 40, .null]⟩] ∧ fetched = [⟨[.int 3, .int 40, .int 2]⟩] := by
  obtain ⟨prepared, hprepared⟩ : ∃ prepared, older.filter.prepare planner.settings.limits =
    .ok prepared := ⟨_, rfl⟩
  have hcandidate : olderPlan ∈
      (PlanningContext.generate ⟨guestBook, guest, {}, planner.settings⟩ prepared older).1 := by
    cases hprepared
    decide +kernel
  have hpart : (Plan.indexScan olderScan).IsPartOf olderPlan := .limit _ (.filter _ .self)
  have hreachable := guestStore_reachable.view
  let c : ExecutionContext := ⟨guestBook, guest, .serializable, ""⟩
  have hcreate : ExecutionContext.create guestBook guest.name .serializable "" = .ok c := rfl
  obtain ⟨covered, fetched, hcovered, hfetched, hkeys, -⟩ :=
    PlanningContext.covering_agrees guestBook_registered hreachable older_valid rfl hprepared
      hcandidate hpart rfl hcreate
  refine ⟨guestBook_registered, hreachable, older_valid, rfl, prepared, c, hprepared, hcandidate,
    hpart, rfl, hcreate, covered, fetched, hcovered, hfetched, hkeys, ?_, ?_⟩
  · -- both runs are evaluated
    rw [hcovered.eq_firstRun]
    decide +kernel
  · rw [hfetched.eq_firstRun]
    decide +kernel

end Visits

end RecordLayer
