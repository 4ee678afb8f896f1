import RecordLayer.Proofs.Candidates.Unsettled

/-!
# When declared orders hold

The orders that candidate plans declare hold in every state exactly if every index that plans may
scan is settled. One direction follows every part of every candidate through its execution; for the
other one an unsettled index has a state and a query that show it.

`visits` is the smallest catalog with an unsettled index: the primary key stands in front of another
field.
-/

namespace RecordLayer

/-- Whatever is stored and asked for, every part of every candidate plan comes in the order that it
declares, and what it merges strictly ascends on the merge key. The bound on the number of records
is that of the ranks. -/
def Catalog.OrdersHold (c : Catalog) (t : RecordType) : Prop :=
  ∀ store : Store, store.Reachable c → (store.view.recordsOf t.name).length < UInt64.size →
  ∀ settings : PlannerSettings, settings.validate = .ok () →
  ∀ (snapshot : StatisticsSnapshot) (q : Query), q.validate c = .ok t →
  ∀ prepared, q.filter.prepare settings.limits = .ok prepared →
  ∀ p ∈ (PlanningContext.generate ⟨c, t, snapshot, settings⟩ prepared q).1,
  ∀ part : Plan, part.IsPartOf p → ∀ (consistency : Consistency) (requestId : String),
    part.KeepsOrder ⟨c, t, consistency, requestId⟩ store.view t

namespace Catalog

open PlanningContext

variable {c : Catalog} {t : RecordType} {i : Index}

theorem ordersHold_of_settled (hc : c.Sound) (ht : c.recordType? t.name = some t)
    (hsettled : ∀ i ∈ c.plannableIndexes t.name, i.Settled c t) : c.OrdersHold t := by
  intro store hstore hcount settings hs snapshot q hvalid prepared hprepared p hp part hpart
    consistency requestId
  obtain ⟨-, -, hknown⟩ := Query.validate_spec hvalid
  obtain ⟨base, image, rfl, hbase, -⟩ :=
    generate_fulfils (ready hc ht hs) hknown hprepared hp
  have hcatalog : store.view.catalog = c := (hstore.keeps hc).1
  subst hcatalog
  exact hbase.fits.keepsOrder_part hsettled ⟨rfl, rfl⟩ (hstore.serves hc ht) hc hcount hpart

/-! ## The query that shows an unsettled index -/

theorem validate_compare {field : String} (ht : c.recordType? t.name = some t)
    (hfield : t.hasField field = true) (op : Comparator) (value : Value) :
    Query.validate { recordType := t.name, filter := .compare field op value } c = .ok t := by
  refine Query.validate_eq_ok.2 ⟨ht, nofun, ?_, ?_⟩
  · simp [Filter.fields, Filter.nodes, Text.mem_sortDistinct, hfield]
  · simp [Filter.rankFields, Filter.nodes, Text.mem_sortDistinct]

theorem exists_prepare_atLeastNull (field : String) {limits : Filter.Limits}
    (hdepth : 1 ≤ limits.maxDepth) :
    ∃ prepared, (atLeastNull field).prepare limits = .ok prepared ∧
      prepared.filter = atLeastNull field := by
  have hcheck : (atLeastNull field).checkDepth limits.maxDepth = .ok () := by
    rw [Filter.checkDepth, if_neg]
    rw [atLeastNull, Filter.depth]
    omega
  unfold Filter.prepare
  rw [hcheck]
  exact ⟨_, rfl, rfl⟩

theorem validate_maxCandidates (n : Nat) :
    PlannerSettings.validate { maxCandidates := n + 5 } = .ok () := by
  simp [PlannerSettings.validate, PlannerSettings.bounds]
  rfl

/-- **An unsettled index is scanned by a candidate that does not keep its order.** -/
theorem not_ordersHold (hc : c.Sound) (ht : c.recordType? t.name = some t)
    (hi : i ∈ c.plannableIndexes t.name) (hsettled : ¬i.Settled c t) : ¬c.OrdersHold t := by
  intro horders
  obtain ⟨stray, hstray⟩ := Index.exists_stray hsettled
  obtain ⟨store, hstore, hrows⟩ := Store.exists_reachable hc ht (hstray.admits hc ht hsettled)
  have hfits := hc.fits ht (mem_plannableIndexes.1 hi).1
  obtain ⟨field, rest, hkey⟩ := List.exists_cons_of_ne_nil hfits.keyFields
  have hlead : i.leadingField? = some field := by
    rw [Index.leadingField?, hkey]
    rfl
  have hfield : t.hasField field = true := hfits.field field (by simp [hkey])
  -- an index over one field is settled, so this is no rank index
  have hrank : i.isRank = false := by
    refine Bool.eq_false_iff.2 fun hrank => hsettled ?_
    obtain ⟨key, hsingle⟩ := List.length_eq_one_iff.1 (hfits.rank hrank)
    exact Index.settled_of_single hsingle
  let settings : PlannerSettings := { maxCandidates := (c.plannableIndexes t.name).length + 5 }
  have hsettings : settings.validate = .ok () := validate_maxCandidates _
  have hdepth : 1 ≤ settings.limits.maxDepth := Nat.le_add_left 1 19
  obtain ⟨prepared, hprepared, hfilter⟩ := exists_prepare_atLeastNull field hdepth
  have hcandidate : Plan.indexScan (openScan i field) ∈ (generate ⟨c, t, {}, settings⟩ prepared
      { recordType := t.name, filter := atLeastNull field }).1 :=
    openScan_mem_generate hi hlead hrank (Nat.le_refl _) hfilter rfl rfl
  have hcatalog : store.view.catalog = c := (hstore.keeps hc).1
  subst hcatalog
  have hover : ExecutionContext.Over ⟨store.view.catalog, t, .serializable, ""⟩ store.view t :=
    ⟨rfl, rfl⟩
  have hcount : (store.view.recordsOf t.name).length < UInt64.size := by
    rw [hrows.length_eq]
    show 2 < UInt64.size
    decide
  refine hstray.not_keepsOrder hover (hstore.serves hc ht) hc hi hlead hrank
    (fun hlast => hsettled (.inl hlast)) hrows ?_
  exact horders store hstore hcount settings hsettings {} _
    (validate_compare ht hfield .ge .null) prepared hprepared _ hcandidate _ .self .serializable ""

end Catalog

/-! ## The primary key in front of another field -/

namespace Visits

/-- Visitors with a number and an age. -/
def visitor : RecordType where
  name := "t"
  fields := [⟨"id", .int, true⟩, ⟨"age", .int, false⟩]
  primaryKey := "id"
  names_nodup := by decide
  primaryKey_mem := by decide

/-- The visitors by age. -/
def byAge : Index := ⟨"by_age", "t", ["age"], false, .value, []⟩

/-- The visitors by number and age; it is not settled. -/
def byIdAge : Index := ⟨"by_id_age", "t", ["id", "age"], false, .value, []⟩

def catalog : Catalog := ⟨[visitor], [byAge, byIdAge]⟩

theorem catalog_registered : Catalog.Registered catalog := by
  refine .index (i := byIdAge) (.index (i := byAge) (.type (t := visitor) .empty rfl) rfl) rfl

/-- Two visitors, the one with the smaller number older. -/
def stored : List Record := [⟨[.int 1, .int 2]⟩, ⟨[.int 2, .int 1]⟩]

/-- The state in which the two visitors are stored. -/
def store : Store :=
  match Store.insertAll { catalog } "t" stored with
  | .ok store => store
  | .error _ => { catalog }

theorem store_reachable : store.Reachable catalog := by
  unfold store
  cases h : Store.insertAll { catalog } "t" stored with
  | ok s => exact Store.reachable_of_insertAll h
  | error e => exact Store.reachable_empty catalog

theorem recordsOf_store : store.view.recordsOf visitor.name = stored := by decide +kernel

end Visits

/-! ## The main result -/

/-- **The declared orders of a registered type hold exactly if its indexes are settled.** -/
theorem Catalog.ordersHold_iff {c : Catalog} {t : RecordType} (hc : c.Registered)
    (ht : c.recordType? t.name = some t) :
    c.OrdersHold t ↔ ∀ i ∈ c.plannableIndexes t.name, i.Settled c t := by
  constructor
  · intro horders i hi
    exact Classical.byContradiction fun hsettled =>
      not_ordersHold hc.sound ht hi hsettled horders
  · exact ordersHold_of_settled hc.sound ht

namespace Visits

theorem ordersHold_iff_visits : Catalog.Registered catalog ∧
    catalog.recordType? visitor.name = some visitor ∧
    (catalog.OrdersHold visitor ↔
      ∀ i ∈ catalog.plannableIndexes visitor.name, i.Settled catalog visitor) :=
  ⟨catalog_registered, rfl, Catalog.ordersHold_iff catalog_registered rfl⟩

/-- The query for the visitors with a positive number. -/
def positive : Query := { recordType := "t", filter := .compare "id" .gt (.int 0) }

/-- The scan of the unsettled index for that query. -/
def scan : IndexScan :=
  ⟨byIdAge, .keys ⟨[], .excluded (.int 0), .unbounded⟩, false, [.compare "id" .gt (.int 0)]⟩

/-- **The scan gives the visitors by number, but declares that it gives them by age.** -/
theorem not_ordersHold_visits : ¬catalog.OrdersHold visitor := by
  intro horders
  obtain ⟨prepared, hprepared⟩ : ∃ prepared, positive.filter.prepare {} = .ok prepared := ⟨_, rfl⟩
  have hcandidate : Plan.indexScan scan ∈
      (PlanningContext.generate ⟨catalog, visitor, {}, {}⟩ prepared positive).1 := by
    cases hprepared
    decide +kernel
  have hvalid : positive.validate catalog = .ok visitor :=
    Catalog.validate_compare (show catalog.recordType? visitor.name = some visitor from rfl)
      (show visitor.hasField "id" = true from rfl) .gt (.int 0)
  have hkeeps := horders store store_reachable (by rw [recordsOf_store]; decide) {} rfl {} positive
    hvalid prepared hprepared _ hcandidate _ .self .serializable ""
  obtain ⟨out, hyields, hsorts⟩ := hkeeps.sorted ⟨["age", "id"], []⟩ rfl
  have hout : out = stored := hyields.eq_firstRun.trans (by decide +kernel)
  rw [hout] at hsorts
  have hsorted := hsorts.sorted
  revert hsorted
  decide +kernel

end Visits

end RecordLayer
