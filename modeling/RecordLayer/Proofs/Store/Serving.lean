import RecordLayer.Proofs.Store.Reachable
import RecordLayer.Proofs.Store.Scanning
import RecordLayer.Store.Reading

/-!
# What a view answers

A view serves the rows of a record type if it is open and free of faults, and everything it answers
about the type is computed from the rows: a scan of records gives them in the order of primary keys,
a scan of an index those in its range in the order of the index, a look-up finds the record of a
key, and the ranking of a rank index holds their values. The committed state of a reachable store
serves its stored records.

A reading of such a view gives one result whatever was read before.
-/

namespace RecordLayer

/-! ## Readings with one result -/

namespace Reading

/-- The reading succeeds with a value, whatever was read before. -/
def Gives {α : Type} (x : Reading α) (a : α) : Prop :=
  ∀ before, ∃ after, (ExceptT.run x).run before = (.ok a, after)

theorem gives_pure {α : Type} (a : α) : Gives (pure a) a := fun before => ⟨before, rfl⟩

theorem gives_bind {α β : Type} {x : Reading α} {f : α → Reading β} {a : α} {b : β}
    (hx : x.Gives a) (hf : (f a).Gives b) : Gives (x >>= f) b := by
  intro before
  obtain ⟨mid, hmid⟩ := hx before
  obtain ⟨after, hafter⟩ := hf mid
  refine ⟨after, ?_⟩
  rw [run_bind, hmid]
  exact hafter

/-- What a reading gives has every property that the reading ensures. -/
theorem Gives.of_ensures {α : Type} {x : Reading α} {P : α → Prop} {a : α} (ha : x.Gives a)
    (h : x.Ensures P) : P a :=
  let ⟨_, hafter⟩ := ha {}
  h _ _ _ hafter

theorem gives_mapM {α β γ : Type} {f : β → Reading γ} {row : α → β} {result : α → γ} {l : List α}
    (h : ∀ a ∈ l, (f (row a)).Gives (result a)) : ((l.map row).mapM f).Gives (l.map result) := by
  induction l with
  | nil => exact gives_pure []
  | cons a l ih =>
    rw [List.map_cons, List.mapM_cons]
    exact gives_bind (h a (by simp))
      (gives_bind (ih fun b hb => h b (by simp [hb])) (gives_pure _))

/-- A reading gives one value at most. -/
theorem Gives.unique {α : Type} {x : Reading α} {a b : α} (ha : x.Gives a) (hb : x.Gives b) :
    a = b := by
  obtain ⟨after, hafter⟩ := ha {}
  obtain ⟨after', hafter'⟩ := hb {}
  rw [hafter] at hafter'
  exact Except.ok.inj (Prod.mk.inj hafter').1

theorem gives_modify (f : ReadTrace → ReadTrace) : Gives (modify f) () :=
  fun before => ⟨f before, rfl⟩

/-! A reading may also end without a value, and then nothing follows it. -/

theorem gives_run_lift {α : Type} {x : Reading α} {a : α} (h : x.Gives a) :
    (OptionT.lift x).run.Gives (some a) := gives_bind h (gives_pure _)

theorem gives_run_bind {α β : Type} {x : OptionT Reading α} {f : α → OptionT Reading β} {a : α}
    {b : Option β} (hx : x.run.Gives (some a)) (hf : (f a).run.Gives b) :
    (x >>= f).run.Gives b := gives_bind hx hf

theorem gives_run_bind_none {α β : Type} {x : OptionT Reading α} {f : α → OptionT Reading β}
    (hx : x.run.Gives none) : (x >>= f).run.Gives none := gives_bind hx (gives_pure _)

theorem gives_run_foldlM {α β : Type} {f : α → β → OptionT Reading α} {step : α → β → α}
    {l : List β} (h : ∀ a, ∀ b ∈ l, (f a b).run.Gives (some (step a b))) :
    ∀ a, (l.foldlM f a).run.Gives (some (l.foldl step a)) := by
  induction l with
  | nil => exact fun a => gives_pure (some a)
  | cons b l ih =>
    intro a
    rw [List.foldlM_cons]
    exact gives_run_bind (h a b (by simp)) (ih (fun a b hb => h a b (by simp [hb])) (step a b))

end Reading

/-! ## Records in the order of an index -/

namespace Index

/-- The records in the order of an index. -/
def sorted (i : Index) (t : RecordType) (rows : List Record) : List Record :=
  rows.mergeSort fun a b => (i.entryOf t a).compare (i.entryOf t b) != .gt

/-- The row of a record in a scan of an index. -/
def rowOf (i : Index) (t : RecordType) (r : Record) : StoreView.EntryRow :=
  .entry ⟨i.keyOf t r, t.keyOf r, i.project t r⟩

theorem sorted_perm (i : Index) (t : RecordType) (rows : List Record) :
    (i.sorted t rows).Perm rows := List.mergeSort_perm _ _

/-- The records ascend by their entries, if their primary keys are distinct. -/
theorem sorted_ascending (i : Index) (t : RecordType) {rows : List Record}
    (h : rows.Pairwise fun a b => t.keyOf a ≠ t.keyOf b) :
    (i.sorted t rows).Pairwise fun a b => (i.entryOf t a).compare (i.entryOf t b) = .lt := by
  have hle : (i.sorted t rows).Pairwise fun a b =>
      ((i.entryOf t a).compare (i.entryOf t b) != .gt) = true := by
    refine List.pairwise_mergeSort (fun a b c hab hbc => ?_) (fun a b => ?_) rows
    · simp only [← EntryKey.compare_def, bne_iff_ne, Ordering.ne_gt_iff_isLE] at hab hbc ⊢
      exact Std.TransCmp.isLE_trans hab hbc
    · rw [← EntryKey.compare_def, ← EntryKey.compare_def,
        Std.OrientedOrd.eq_swap (a := i.entryOf t b)]
      cases compare (i.entryOf t a) (i.entryOf t b) <;> rfl
  have hne : (i.sorted t rows).Pairwise fun a b => t.keyOf a ≠ t.keyOf b :=
    (i.sorted_perm t rows).symm.pairwise h fun hab => Ne.symm hab
  refine List.Pairwise.imp₂ (fun a b hab hkey => ?_) hle hne
  have hab : (i.entryOf t a).compare (i.entryOf t b) ≠ .gt := by simpa using hab
  cases hc : (i.entryOf t a).compare (i.entryOf t b) with
  | lt => rfl
  | eq =>
    have := Std.LawfulEqOrd.eq_of_compare (α := EntryKey) hc
    exact absurd (congrArg EntryKey.primaryKey this) hkey
  | gt => exact absurd hc hab

end Index

namespace IndexData

/-- The entries of an index are those of the records, in its order. -/
theorem Keeps.entries_eq {t : RecordType} {i : Index} {rows : List Record} {d : IndexData}
    (h : d.Keeps t i rows) (hrows : rows.Pairwise fun a b => t.keyOf a ≠ t.keyOf b) :
    d.entries = (i.sorted t rows).map (i.entryOf t) := by
  have hsorted : EntryKey.Ascending ((i.sorted t rows).map (i.entryOf t)) :=
    List.pairwise_map.2 (i.sorted_ascending t hrows)
  have hnodup : ∀ {entries : List EntryKey}, EntryKey.Ascending entries → entries.Nodup :=
    fun h => List.Pairwise.imp (fun hab heq => by
      rw [heq, EntryKey.compare_self] at hab
      cases hab) h
  refine List.Perm.eq_of_pairwise
    (fun a b _ _ hab (hba : b.compare a = .lt) => ?_) h.ascending hsorted
    ((List.perm_ext_iff_of_nodup (hnodup h.ascending) (hnodup hsorted)).2 fun e => ?_)
  · rw [EntryKey.compare_swap, hba] at hab
    cases hab
  · rw [h.mem, List.mem_map]
    simp only [(i.sorted_perm t rows).mem_iff]

end IndexData

/-! ## Views that serve rows -/

namespace StoreView

/-- Everything that the view answers about a record type is computed from its rows. -/
structure Serves (v : StoreView) (t : RecordType) (rows : List Record) : Prop where
  isOpen : v.isOpen = true
  fault : v.fault = fun _ _ => none
  hidden : v.hidden = []
  recordType : v.catalog.recordType? t.name = some t
  ascending : rows.Pairwise fun a b => (t.keyOf a).compare (t.keyOf b) = .lt
  valid : ∀ r ∈ rows, t.validate r = .ok ()
  recordsOf : v.recordsOf t.name = rows
  load : ∀ r ∈ rows, (v.table? t.name).bind (·.records.lookup? (t.keyOf r)) = some r
  entryKeys : ∀ i ∈ v.catalog.plannableIndexes t.name,
    v.entryKeys i = (i.sorted t rows).map (i.entryOf t)
  /-- Pull number `k` of a scan gives the record at place `k`, if there is one. -/
  pulled : ∀ i ∈ v.catalog.plannableIndexes t.name, ∀ range count,
    v.pullEntries t i range count {} = (List.range count).map fun k =>
      ((i.sorted t rows).filter fun r => range.contains (i.keyOf t r))[k]?.map (i.rowOf t)
  /-- Without a table there is no ranking, but also no row. -/
  ranking : ∀ i ∈ v.catalog.plannableIndexes t.name, i.isRank = true →
    (∃ ranks values, ((v.table? i.recordType).bind (·.data? i)).bind (·.ranks) = some ranks ∧
      ranks.Holds values ∧ values.Perm (rows.filterMap fun r => (i.keyOf t r).head?)) ∨
    (((v.table? i.recordType).bind (·.data? i)).bind (·.ranks) = none ∧ rows = [])
  unique : ∀ i ∈ v.catalog.plannableIndexes t.name, i.unique = true → ∀ r ∈ rows, ∀ s ∈ rows,
    i.keyOf t r = i.keyOf t s → r = s

variable {v : StoreView} {t : RecordType} {rows : List Record}

/-- The primary keys of the rows are distinct. -/
theorem Serves.keys_ne (h : v.Serves t rows) :
    rows.Pairwise fun a b => t.keyOf a ≠ t.keyOf b :=
  h.ascending.imp fun hab heq => by
    rw [heq, Value.compare_self] at hab
    cases hab

theorem Serves.nodup (h : v.Serves t rows) : rows.Nodup :=
  h.keys_ne.imp fun hab heq => hab (by rw [heq])

theorem Serves.eq_of_keyOf (h : v.Serves t rows) {r s : Record} (hr : r ∈ rows) (hs : s ∈ rows)
    (heq : t.keyOf r = t.keyOf s) : r = s := by
  have hload := h.load r hr
  rw [heq, h.load s hs] at hload
  exact (Option.some.inj hload).symm

theorem filterMap_getElem? {α : Type} (l : List α) (count : Nat) :
    (List.range count).filterMap (fun k => l[k]?) = l.take count := by
  induction count with
  | zero => simp
  | succ count ih => rw [List.range_succ, List.filterMap_append, ih, List.take_add_one]; rfl

/-- A scan gives the records of its range in the order of the index. -/
theorem Serves.entriesOf (h : v.Serves t rows) {i : Index}
    (hi : i ∈ v.catalog.plannableIndexes t.name) (range : KeyRange) : v.entriesOf t i range =
      ((i.sorted t rows).filter fun r => range.contains (i.keyOf t r)).map (i.rowOf t) := by
  have hcount : ((i.sorted t rows).filter fun r => range.contains (i.keyOf t r)).length ≤
      v.entryCount i := by
    rw [entryCount, h.entryKeys i hi, List.length_map]
    exact List.length_filter_le _ _
  rw [StoreView.entriesOf, h.pulled i hi, List.filterMap_map]
  simp only [Function.comp_def, id, ← List.getElem?_map]
  rw [filterMap_getElem?, List.take_of_length_le (by rwa [List.length_map])]

/-- An index looks at the table of its own record type. -/
theorem table?_of_mem {c : Catalog} {i : Index} (hi : i ∈ c.plannableIndexes t.name)
    (tables : Tables) :
    table? { catalog := c, tables } i.recordType = tables.lookup? t.name := by
  rw [Catalog.recordType_of_mem_indexesOf (Catalog.mem_plannableIndexes.1 hi).1]
  rfl

/-- The pulls of a scan over a sound table go through the records of its range, one after the other:
no entry leads nowhere. -/
theorem pullEntries_of_keeps {c : Catalog} {tables : Tables} {table : Table}
    (htable : tables.lookup? t.name = some table)
    (hkeeps : table.Keeps t (c.plannableIndexes t.name)) {i : Index}
    (hi : i ∈ c.plannableIndexes t.name) (range : KeyRange) (count : Nat) :
    pullEntries { catalog := c, tables } t i range count {} = (List.range count).map fun k =>
        ((i.sorted t table.rows).filter fun r => range.contains (i.keyOf t r))[k]?.map
          (i.rowOf t) := by
  obtain ⟨d, hd, hdata⟩ := hkeeps.index i hi
  have hentries := hdata.entries_eq hkeeps.keys_ne
  -- the record of every entry is there to be loaded
  have hrow : ∀ r ∈ i.sorted t table.rows, entryRow table t i (i.entryOf t r) = i.rowOf t r := by
    intro r hr
    have hload := SortedMap.lookup?_of_mem hkeeps.ascending
      (hkeeps.mem_rows ((i.sorted_perm t _).mem_iff.1 hr)).1
    simp only [entryRow, Index.entryOf, hload, Index.rowOf]
  rw [pullEntries_eq ((table?_of_mem hi tables).trans htable) hd hdata.ascending (fun e he => ?_)
      count {} rfl (EntryScan.within_start range),
    EntryScan.rest_start, hentries, List.filter_map]
  · refine List.map_congr_left fun k _ => ?_
    rw [List.getElem?_map, Option.map_map]
    refine Option.map_congr fun r hr => hrow r ?_
    exact (List.mem_filter.1 (List.mem_of_getElem? hr)).1
  · rw [hentries] at he
    obtain ⟨r, hr, rfl⟩ := List.mem_map.1 he
    exact ⟨_, hrow r hr⟩

/-- The view of a sound table serves its rows. -/
theorem serves_of_keeps {c : Catalog} {tables : Tables} {table : Table}
    (ht : c.recordType? t.name = some t)
    (htable : tables.lookup? t.name = some table)
    (hkeeps : table.Keeps t (c.plannableIndexes t.name)) :
    Serves { catalog := c, tables } t table.rows where
  isOpen := rfl
  fault := rfl
  hidden := rfl
  recordType := ht
  ascending := by
    refine List.pairwise_map.2 (List.Pairwise.imp_of_mem (fun {p q} hp hq hpq => ?_)
      hkeeps.ascending)
    rw [(hkeeps.filed p hp).1, (hkeeps.filed q hq).1]
    exact hpq
  valid r hr := (hkeeps.mem_rows hr).2
  recordsOf := by
    unfold StoreView.recordsOf table?
    rw [htable]
    rfl
  load r hr := by
    show (tables.lookup? t.name).bind _ = _
    rw [htable]
    exact SortedMap.lookup?_of_mem hkeeps.ascending (hkeeps.mem_rows hr).1
  entryKeys i hi := by
    obtain ⟨d, hd, hdata⟩ := hkeeps.index i hi
    unfold StoreView.entryKeys
    simp only [table?_of_mem hi, htable, hd]
    exact hdata.entries_eq hkeeps.keys_ne
  pulled i hi := pullEntries_of_keeps htable hkeeps hi
  ranking i hi hrank := by
    obtain ⟨d, hd, hdata⟩ := hkeeps.index i hi
    have hsome := hdata.ranked
    rw [hrank, Option.isSome_iff_exists] at hsome
    obtain ⟨ranks, hranks⟩ := hsome
    -- the ranked set of a field holds the values of the field in all records
    obtain ⟨values, hholds, hvalues⟩ := hdata.ranks ranks hranks
    refine .inl ⟨ranks, values, ?_, hholds, hvalues⟩
    simp [table?_of_mem hi, htable, hd, hranks]
  unique i hi hu r hr s hs heq := hkeeps.eq_of_keyOf hr hs (hkeeps.unique i hi hu r hr s hs heq)

/-- A view without a table serves no rows. -/
theorem serves_nil {c : Catalog} {tables : Tables} (ht : c.recordType? t.name = some t)
    (htable : tables.lookup? t.name = none) : Serves { catalog := c, tables } t [] where
  isOpen := rfl
  fault := rfl
  hidden := rfl
  recordType := ht
  ascending := .nil
  valid := by simp
  recordsOf := by
    unfold StoreView.recordsOf table?
    rw [htable]
  load := by simp
  entryKeys i hi := by
    unfold StoreView.entryKeys
    simp [table?_of_mem hi, htable, Index.sorted]
  pulled i hi range count := by
    rw [pullEntries_of_table_none ((table?_of_mem hi tables).trans htable)]
    simp [Index.sorted, List.map_const']
  ranking i hi _ := .inr ⟨by simp [table?_of_mem hi, htable], rfl⟩
  unique := by simp

end StoreView

/-- **Sound tables serve their records.** A type without a table has none. -/
theorem Catalog.Keeps.serves {c : Catalog} {tables : Tables} (h : c.Keeps tables) {t : RecordType}
    (ht : c.recordType? t.name = some t) :
    StoreView.Serves { catalog := c, tables } t
      (StoreView.recordsOf { catalog := c, tables } t.name) := by
  cases hl : tables.lookup? t.name with
  | none =>
    have hserves := StoreView.serves_nil ht hl
    rwa [hserves.recordsOf]
  | some table =>
    obtain ⟨t', ht', htable⟩ := h t.name table hl
    obtain rfl : t = t' := Option.some.inj (ht.symm.trans ht')
    have hserves := StoreView.serves_of_keeps ht hl htable
    rwa [hserves.recordsOf]

/-- **The committed state of a reachable store serves its stored records.** -/
theorem Store.Reachable.serves {c : Catalog} (hc : c.Sound) {s : Store} (h : s.Reachable c)
    {t : RecordType} (ht : c.recordType? t.name = some t) :
    s.view.Serves t (s.view.recordsOf t.name) := by
  obtain ⟨hcat, hkeeps⟩ := h.keeps hc
  rw [Store.view, hcat]
  exact hkeeps.serves ht

/-! ## Readings of such a view -/

/-- A rank index answers from these values, one for each record: how many are smaller, which one
stands at a rank among the sorted values, and how many there are. Numbers have 64 bits. -/
structure StoreView.AnswersFrom (v : StoreView) (i : Index) (values : List Value) : Prop where
  rankOf : ∀ value, (v.rankOf i value).Gives (values.countP (·.lt value)).toUInt64
  selectRank : ∀ rank : UInt64, (v.selectRank i rank).Gives (Value.sort values)[rank.toNat]?
  rankCount : (v.rankCount i).Gives values.length.toUInt64

namespace StoreView.Serves

open Reading

variable {v : StoreView} {t : RecordType} {rows : List Record}

theorem checkFault_gives (h : v.Serves t rows) (p : FaultPoint) : (v.checkFault p).Gives () := by
  unfold checkFault
  rw [h.fault]
  exact fun before => ⟨before, rfl⟩

theorem ensureOpen_gives (h : v.Serves t rows) : v.ensureOpen.Gives () := by
  unfold ensureOpen
  rw [h.isOpen]
  exact gives_pure ()

theorem recordType_gives (h : v.Serves t rows) : (v.recordType t.name).Gives t := by
  unfold StoreView.recordType
  rw [h.recordType]
  exact gives_pure t

theorem checkIndex_gives (h : v.Serves t rows) {i : Index}
    (hi : i ∈ v.catalog.plannableIndexes t.name) : (v.checkIndex i).Gives t := by
  obtain ⟨hof, -⟩ := Catalog.mem_plannableIndexes.1 hi
  unfold checkIndex
  rw [Catalog.recordType_of_mem_indexesOf hof]
  refine gives_bind h.recordType_gives ?_
  rw [if_pos (List.any_eq_true.2 ⟨i, hof, by simp⟩)]
  exact gives_pure t

theorem yieldRow_gives {α : Type} (h : v.Serves t rows) (row : α) : (v.yieldRow row).Gives row :=
  gives_bind (gives_modify _) (gives_bind (h.checkFault_gives _) (gives_pure row))

theorem endRows_gives (h : v.Serves t rows) : v.endRows.Gives () :=
  gives_bind (gives_modify _) (h.checkFault_gives _)

theorem yieldEntry_gives (h : v.Serves t rows) (i : Index) (r : Record) :
    (v.yieldEntry (i.rowOf t r)).Gives ⟨i.keyOf t r, t.keyOf r, i.project t r⟩ :=
  gives_bind (h.yieldRow_gives _) (gives_pure _)

theorem scanRecords_gives (h : v.Serves t rows) (consistency : Consistency) :
    (v.scanRecords t.name consistency).Gives rows := by
  refine gives_bind (gives_modify _) (gives_bind h.ensureOpen_gives (gives_bind (gives_modify _)
    (gives_bind h.recordType_gives ?_)))
  rw [h.recordsOf]
  exact gives_pure rows

/-- **All records of the type** are the rows. -/
theorem records_gives (h : v.Serves t rows) (consistency : Consistency) :
    (v.records t.name consistency).Gives rows := by
  have hyield : (rows.mapM v.yieldRow).Gives rows := by
    have hmap : ((rows.map id).mapM v.yieldRow).Gives (rows.map id) :=
      gives_mapM fun r _ => h.yieldRow_gives r
    rwa [List.map_id] at hmap
  exact gives_bind (h.scanRecords_gives consistency)
    (gives_bind hyield (gives_bind h.endRows_gives (gives_pure rows)))

theorem loadRecord_gives (h : v.Serves t rows) {r : Record} (hr : r ∈ rows)
    (consistency : Consistency) :
    (v.loadRecord t.name (t.keyOf r) consistency).Gives (some r) := by
  refine gives_bind (h.checkFault_gives _) (gives_bind h.ensureOpen_gives
    (gives_bind (gives_modify _) (gives_bind h.recordType_gives ?_)))
  rw [h.hidden, h.load r hr]
  exact gives_pure _

theorem scanIndex_gives (h : v.Serves t rows) {i : Index}
    (hi : i ∈ v.catalog.plannableIndexes t.name) (range : KeyRange) (consistency : Consistency) :
    (v.scanIndex i range consistency).Gives
      (((i.sorted t rows).filter fun r => range.contains (i.keyOf t r)).map (i.rowOf t)) := by
  refine gives_bind h.ensureOpen_gives (gives_bind (gives_modify _)
    (gives_bind (h.checkIndex_gives hi) ?_))
  rw [h.entriesOf hi]
  exact gives_pure _

/-- **All entries of a range** are those of the records with a key in it. -/
theorem entries_gives (h : v.Serves t rows) {i : Index}
    (hi : i ∈ v.catalog.plannableIndexes t.name) (range : KeyRange) (consistency : Consistency) :
    (v.entries i range consistency).Gives
      (((i.sorted t rows).filter fun r => range.contains (i.keyOf t r)).map fun r =>
        ⟨i.keyOf t r, t.keyOf r, i.project t r⟩) :=
  gives_bind (h.scanIndex_gives hi range consistency)
    (gives_bind (gives_mapM fun r _ => h.yieldEntry_gives i r)
      (gives_bind h.endRows_gives (gives_pure _)))

theorem ranking_gives (h : v.Serves t rows) {i : Index}
    (hi : i ∈ v.catalog.plannableIndexes t.name) (hrank : i.isRank = true) :
    (v.ranking i).Gives (((v.table? i.recordType).bind (·.data? i)).bind (·.ranks)) := by
  refine gives_bind (gives_modify _) (gives_bind (h.checkFault_gives _)
    (gives_bind h.ensureOpen_gives (gives_bind (h.checkIndex_gives hi) ?_)))
  rw [hrank]
  exact gives_pure _

/-- **A rank index answers from the values of the rows in its field.** -/
theorem answersFrom (h : v.Serves t rows) {i : Index}
    (hi : i ∈ v.catalog.plannableIndexes t.name) (hrank : i.isRank = true) {field : String}
    (hfield : i.keyFields = [field]) : v.AnswersFrom i (rows.map (t.valueOf · field)) := by
  have hranking := h.ranking_gives hi hrank
  rcases h.ranking i hi hrank with ⟨ranks, values, hsome, hholds, hperm⟩ | ⟨hnone, hrows⟩
  · have hhead : (fun r => (i.keyOf t r).head?) = fun r => some (t.valueOf r field) := by
      funext r
      rw [Index.keyOf, hfield]
      rfl
    rw [hhead, List.filterMap_eq_map'] at hperm
    rw [hsome] at hranking
    refine ⟨fun value => gives_bind hranking ?_, fun rank => gives_bind hranking ?_,
      gives_bind hranking ?_⟩
    · -- the ranked set holds the values of the field, so its answers are those of the list
      have hrankOf : ranks.rank value = values.countP (·.lt value) := hholds.rank_eq value
      rw [← hperm.countP_eq, ← hrankOf]
      exact gives_pure _
    · rw [← Value.eq_sort hperm hholds.sorted, ← hholds.select_eq]
      exact gives_pure _
    · rw [← hperm.length_eq, ← hholds.size_eq]
      exact gives_pure _
  · -- without a table there is nothing to sort
    rw [hnone] at hranking
    rw [hrows, List.map_nil]
    refine ⟨fun value => gives_bind hranking (gives_pure _), fun rank => gives_bind hranking ?_,
      gives_bind hranking (gives_pure _)⟩
    rw [Value.sort, List.mergeSort_nil]
    exact gives_pure _

end StoreView.Serves

end RecordLayer
