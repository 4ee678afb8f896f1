import RecordLayer.Proofs.Histogram.Cutting
import RecordLayer.Proofs.Record
import RecordLayer.Proofs.SortedMap
import RecordLayer.Proofs.Statistics.Gathering
import RecordLayer.Proofs.Store.Representation
import RecordLayer.Statistics.Collection

/-!
# Analyzing a table

Analysis counts the records of a type and spreads the leading field of each index over buckets. A
snapshot validates what it is offered without knowing where it comes from. **What analysis collects
from stored records always passes, and it is exact.**

* Stored records are valid, so each has a value in every field, and the values of a field are of one
  kind, nulls apart.
* No two fields of a type have the same name, and no two indexes do, so nothing that was collected
  is overwritten.
* Indexes that lead with the same field have the same histogram, so it makes no difference which of
  them answers for the field.

Analysis ends the program if a list has no room for the buckets of a histogram. It succeeds just
when no histogram of records is made or there is room for its buckets.
-/

namespace RecordLayer

/-- The values of records that lead the keys of an index. -/
def Index.leads (i : Index) (t : RecordType) (rows : List Record) : List Value :=
  rows.filterMap fun r => (i.keyOf t r).head?

theorem Index.leads_eq {i : Index} {field : String} (hlead : i.leadingField? = some field)
    (t : RecordType) (rows : List Record) : i.leads t rows = rows.map (t.valueOf · field) := by
  refine List.filterMap_eq_map_iff_forall_eq_some.2 fun r _ => ?_
  have hhead : i.keyFields.head? = some field := hlead
  rw [Index.keyOf, List.head?_map, hhead]
  rfl

/-- An index that fits a type leads with one of its fields. -/
theorem Catalog.Fits.exists_leadingField {t : RecordType} {i : Index} (h : Catalog.Fits t i) :
    ∃ field, i.leadingField? = some field ∧ t.hasField field = true := by
  obtain ⟨field, rest, hkey⟩ := List.exists_cons_of_ne_nil h.keyFields
  exact ⟨field, by rw [Index.leadingField?, hkey]; rfl, h.field field (by simp [hkey])⟩

namespace Statistics

variable {s : Statistics} {t : RecordType} {rows : List Record} {field : String}
  {buckets room : Nat} {i : Index} {indexes : List Index} {v : StoreView}

/-! ## Counts -/

theorem column_eq (hvalid : ∀ r ∈ rows, t.validate r = .ok ()) {n : Nat}
    (hn : t.position? field = some n) : column rows n = rows.map (t.valueOf · field) :=
  List.filterMap_eq_map_iff_forall_eq_some.2 fun r hr =>
    RecordType.getElem?_of_position? (hvalid r hr) hn

theorem foldl_withDistinct (n : Field × Nat → UInt64) (fields : List (Field × Nat)) :
    ∀ table : TableStatistics,
      fields.foldl (fun table p => table.withDistinct p.1.name (n p)) table =
        ⟨table.recordType, table.rowCount,
          fields.foldl (fun m p => m.put p.1.name (n p)) table.distinctCounts⟩ := by
  induction fields with
  | nil => exact fun _ => rfl
  | cons p rest ih => exact fun table => ih _

theorem count_eq (t : RecordType) (rows : List Record) : count t rows =
    ⟨t.name, rows.length.toUInt64, t.fields.zipIdx.foldl (fun m p =>
      m.put p.1.name (Value.sortDistinct (column rows p.2)).length.toUInt64) []⟩ :=
  foldl_withDistinct (fun p => (Value.sortDistinct (column rows p.2)).length.toUInt64) _ _

theorem rowCount_count (t : RecordType) (hmemory : rows.length < UInt64.size) :
    (count t rows).rowCount.toNat = rows.length := by
  rw [count_eq]
  exact UInt64.toNat_ofNat_of_lt' hmemory

theorem length_sortDistinct_column_le (rows : List Record) (n : Nat) :
    (Value.sortDistinct (column rows n)).length ≤ rows.length := by
  rw [Value.length_sortDistinct]
  exact Nat.le_trans (List.dedup_sublist _).length_le (List.length_filterMap_le _ _)

/-- **No field has more distinct values than there are records.** -/
theorem validate_count (t : RecordType) (hmemory : rows.length < UInt64.size) :
    (count t rows).validate = .ok () := by
  have hnone : ((count t rows).distinctCounts.find? fun p => (count t rows).rowCount < p.2) =
      none := by
    refine List.find?_eq_none.2 fun p hp => ?_
    simp only [decide_eq_true_eq, UInt64.not_lt, UInt64.le_iff_toNat_le]
    rw [rowCount_count t hmemory]
    rw [count_eq] at hp
    rcases SortedMap.mem_foldl_put hp with hp | ⟨b, -, rfl⟩
    · cases hp
    · have hle := length_sortDistinct_column_le rows b.2
      rwa [UInt64.toNat_ofNat_of_lt' (Nat.lt_of_le_of_lt hle hmemory)]
  unfold TableStatistics.validate
  rw [hnone]

/-- **Each field has its distinct values counted.** -/
theorem lookup?_count (hvalid : ∀ r ∈ rows, t.validate r = .ok ())
    (hmemory : rows.length < UInt64.size) (hfield : t.hasField field = true) :
    ((count t rows).distinctCounts.lookup? field).map (·.toNat) =
      some (rows.map (t.valueOf · field)).dedup.length := by
  obtain ⟨n, hn⟩ := RecordType.exists_position? hfield
  obtain ⟨hlt, hname, -⟩ := List.findIdx?_eq_some_iff_getElem.1 hn
  have hname : t.fields[n].name = field := by simpa using hname
  have hmem : (t.fields[n], n) ∈ t.fields.zipIdx :=
    List.mk_mem_zipIdx_iff_getElem?.2 (List.getElem?_eq_getElem hlt)
  -- a name that stands there once is put once
  have hnodup : (t.fields.zipIdx.map fun p => p.1.name).Nodup := by
    have hnames := t.names_nodup
    rwa [← List.zipIdx_map_fst 0 t.fields, List.map_map] at hnames
  have hlookup := SortedMap.lookup?_foldl_put
    (fun p => (Value.sortDistinct (column rows p.2)).length.toUInt64) hnodup hmem []
  have hle := Nat.lt_of_le_of_lt (length_sortDistinct_column_le rows n) hmemory
  rw [hname] at hlookup
  rw [count_eq, hlookup, Option.map_some, UInt64.toNat_ofNat_of_lt' hle, column_eq hvalid hn,
    Value.length_sortDistinct]

/-! ## Histograms -/

/-- The histogram that analysis gives an index. -/
def histogramOf (t : RecordType) (rows : List Record) (buckets : Nat) (i : Index) : Histogram :=
  .equiDepth (Value.sort (i.leads t rows)) buckets

theorem sort_leads_perm (hlead : i.leadingField? = some field) :
    (Value.sort (i.leads t rows)).Perm (rows.map (t.valueOf · field)) := by
  rw [← Index.leads_eq hlead]
  exact List.mergeSort_perm _ _

theorem length_sort_leads (hlead : i.leadingField? = some field) :
    (Value.sort (i.leads t rows)).length = rows.length := by
  rw [(sort_leads_perm hlead).length_eq, List.length_map]

/-- **The histogram of an index describes the values of its leading field.** -/
theorem describes_histogramOf (hmemory : rows.length < UInt64.size) (hbuckets : 0 < buckets)
    (hlead : i.leadingField? = some field) :
    (histogramOf t rows buckets i).Describes (rows.map (t.valueOf · field)) := by
  rw [← length_sort_leads (t := t) hlead] at hmemory
  exact (Histogram.describes_equiDepth (Value.sort_sorted _) hmemory hbuckets).perm
    (sort_leads_perm hlead)

/-- **The histogram of an index is accepted,** whatever the number of buckets is. -/
theorem checkHistogram_histogramOf (hvalid : ∀ r ∈ rows, t.validate r = .ok ())
    (hmemory : rows.length < UInt64.size) (hfits : Catalog.Fits t i) (buckets : Nat) :
    StatisticsSnapshot.checkHistogram t i (histogramOf t rows buckets i) = .ok () := by
  obtain ⟨field, hlead, hfield⟩ := hfits.exists_leadingField
  obtain ⟨f, hf⟩ : ∃ f, (t.fields.find? (·.name == field)) = some f :=
    Option.isSome_iff_exists.1 (by rw [List.find?_isSome]; exact List.any_eq_true.1 hfield)
  have hsorted := Value.sort_sorted (i.leads t rows)
  have hkinds : ∀ w ∈ Value.sort (i.leads t rows), w.isNull = false → w.kind = f.type.kind := by
    intro w hw hnull
    obtain ⟨r, hr, rfl⟩ := List.mem_map.1 ((sort_leads_perm hlead).mem_iff.1 hw)
    exact RecordType.kind_valueOf (hvalid r hr) hf hnull
  rw [← length_sort_leads (t := t) hlead] at hmemory
  refine StatisticsSnapshot.checkHistogram_eq_ok_iff.2
    ⟨Histogram.sound_equiDepth hsorted hmemory hkinds buckets, fun g kind hg hkind => ?_⟩
  rw [hlead, Option.bind_some, hf] at hg
  obtain rfl := Option.some.inj hg
  -- the kind is that of a bound, and every bound is a value of some record
  obtain ⟨b, hb, w, hw, hnull, rfl⟩ := Histogram.exists_of_kind?_eq_some hkind
  have hmem := Histogram.bounds_equiDepth_mem hsorted buckets b hb w hw
  exact decide_eq_true (hkinds w hmem hnull).symm

/-! ## What the scans give -/

/-- The statistics with those of the given rows in them. -/
def withRows (s : Statistics) (t : RecordType) (rows : List Record) (buckets : Nat)
    (indexes : List Index) : Statistics where
  tables := s.tables.put t.name (count t rows)
  histograms :=
    indexes.foldl (fun hs i => hs.put i.name (histogramOf t rows buckets i)) s.histograms

theorem foldl_putHistogram (h : Index → Histogram) (indexes : List Index) : ∀ s : Statistics,
    indexes.foldl (fun s i => s.putHistogram i.name (h i)) s =
      ⟨s.tables, indexes.foldl (fun hs i => hs.put i.name (h i)) s.histograms⟩ := by
  induction indexes with
  | nil => exact fun _ => rfl
  | cons i rest ih => exact fun s => ih _

/-- The histogram of an index has room unless there are records and more buckets than fit. -/
theorem spread_eq (hlead : i.leadingField? = some field)
    (hvalid : ∀ r ∈ rows, t.validate r = .ok ()) {n : Nat} (hn : t.position? field = some n) :
    spread room rows n buckets =
      if rows = [] ∨ buckets ≤ room then some (histogramOf t rows buckets i) else none := by
  have hcolumn : column rows n = i.leads t rows := by
    rw [column_eq hvalid hn, Index.leads_eq hlead]
  have hempty : Value.sort (i.leads t rows) = [] ↔ rows = [] := by
    rw [← List.length_eq_zero_iff, length_sort_leads hlead, List.length_eq_zero_iff]
  rw [spread, hcolumn]
  split
  · rename_i hroom
    exact Histogram.ofSorted_eq_some_iff.2 ⟨hroom.imp_left hempty.2, rfl⟩
  · rename_i hroom
    rw [← Option.not_isSome_iff_eq_none, Histogram.isSome_ofSorted_iff, hempty]
    exact hroom

theorem refreshHistogram_gives (h : v.Serves t rows) (hfits : Catalog.Fits t i) (s : Statistics) :
    (refreshHistogram room v t buckets s i).run.Gives
      (if rows = [] ∨ buckets ≤ room then
        some (s.putHistogram i.name (histogramOf t rows buckets i)) else none) := by
  obtain ⟨field, hlead, hfield⟩ := hfits.exists_leadingField
  obtain ⟨n, hn⟩ := RecordType.exists_position? hfield
  have hposition : i.leadingField?.bind t.position? = some n := by rw [hlead, Option.bind_some, hn]
  unfold refreshHistogram
  rw [hposition]
  refine Reading.gives_run_bind (Reading.gives_run_lift (h.records_gives _)) ?_
  rw [spread_eq hlead h.valid hn]
  by_cases hroom : rows = [] ∨ buckets ≤ room
  · simp only [if_pos hroom]
    exact Reading.gives_pure _
  · simp only [if_neg hroom]
    exact Reading.gives_pure _

/-- **Every scan sees the rows that the view serves,** and the first histogram without room is the
last that is tried. -/
theorem refresh_gives (hc : v.catalog.Sound) (h : v.Serves t rows) (s : Statistics)
    (room buckets : Nat) :
    (s.refresh room v t buckets).run.Gives
      (if rows = [] ∨ v.catalog.plannableIndexes t.name = [] ∨ buckets ≤ room then
        some (s.withRows t rows buckets (v.catalog.plannableIndexes t.name)) else none) := by
  have hput : s.putTable (count t rows) = ⟨s.tables.put t.name (count t rows), s.histograms⟩ := by
    rw [putTable, count_eq]
  have hscan : ∀ s : Statistics, ∀ i ∈ v.catalog.plannableIndexes t.name,
      (refreshHistogram room v t buckets s i).run.Gives (if rows = [] ∨ buckets ≤ room then
        some (s.putHistogram i.name (histogramOf t rows buckets i)) else none) := fun s i hi =>
    refreshHistogram_gives h (hc.fits h.recordType (Catalog.mem_plannableIndexes.1 hi).1) s
  refine Reading.gives_run_bind (Reading.gives_run_lift (h.records_gives _)) ?_
  by_cases hroom : rows = [] ∨ buckets ≤ room
  · -- there is room: the histograms are put in one by one
    have hfolded := Reading.gives_run_foldlM
      (fun s i hi => by simpa only [if_pos hroom] using hscan s i hi) (s.putTable (count t rows))
    rw [foldl_putHistogram, hput] at hfolded
    rw [if_pos (hroom.imp_right .inr), hput]
    exact hfolded
  · cases hindexes : v.catalog.plannableIndexes t.name with
    | nil =>
      rw [if_pos (.inr (.inl rfl)), hput]
      exact Reading.gives_pure _
    | cons i indexes =>
      -- the first index already ends the analysis
      have hnone := hscan (s.putTable (count t rows)) i (by simp [hindexes])
      rw [if_neg hroom] at hnone
      rw [if_neg (by simpa using hroom), List.foldlM_cons]
      exact Reading.gives_run_bind_none hnone

/-! ## What a snapshot makes of it -/

open StatisticsSnapshot

section Gather

variable (hvalid : ∀ r ∈ rows, t.validate r = .ok ()) (hmemory : rows.length < UInt64.size)
  (hnames : (indexes.map (·.name)).Nodup) (hfits : ∀ i ∈ indexes, Catalog.Fits t i)
include hmemory

theorem fetchTable_withRows (s : Statistics) (buckets : Nat) :
    fetchTable (s.withRows t rows buckets indexes).toSource t = .ok (some (count t rows)) := by
  have hlookup := SortedMap.lookup?_put_self t.name (count t rows) s.tables
  exact bind_eq_ok_iff.2 ⟨some (count t rows), congrArg Except.ok hlookup,
    bind_eq_ok_iff.2 ⟨(), validate_count t hmemory, rfl⟩⟩

include hvalid hnames hfits

theorem fetchHistogram_withRows (s : Statistics) (buckets : Nat) (hi : i ∈ indexes) :
    fetchHistogram (s.withRows t rows buckets indexes).toSource t i =
      .ok (some (histogramOf t rows buckets i)) := by
  refine fetchHistogram_eq_ok_some_iff.2
    ⟨?_, checkHistogram_histogramOf hvalid hmemory (hfits i hi) buckets⟩
  exact congrArg Except.ok (SortedMap.lookup?_foldl_put _ hnames hi _)

/-- **A snapshot accepts everything.** -/
theorem gather_withRows (s : Statistics) (buckets : Nat) :
    (gather (s.withRows t rows buckets indexes).toSource t indexes).table = some (count t rows) ∧
      (gather (s.withRows t rows buckets indexes).toSource t indexes).rejected = [] := by
  obtain ⟨htable, hrejected⟩ := (gather_eq (s.withRows t rows buckets indexes).toSource t indexes).2
    _ (fetchTable_withRows hmemory s buckets)
  refine ⟨htable, ?_⟩
  rw [hrejected, List.filterMap_eq_nil_iff]
  intro i hi
  rw [refused?, fetchHistogram_withRows hvalid hmemory hnames hfits s buckets hi]

/-- **A snapshot keeps a histogram of every index,** if there are records and buckets. -/
theorem gather_withRows_histograms (s : Statistics) (hbuckets : 0 < buckets) (hrows : rows ≠ []) :
    (gather (s.withRows t rows buckets indexes).toSource t indexes).histograms =
      indexes.map fun i => (i, histogramOf t rows buckets i) := by
  rw [(gather_eq _ t indexes).1, List.filterMap_eq_map_iff_forall_eq_some]
  intro i hi
  refine kept?_eq_some_iff.2
    ⟨rfl, fetchHistogram_withRows hvalid hmemory hnames hfits s buckets hi, fun hempty => ?_⟩
  -- the value of some record lies in a bucket
  obtain ⟨field, hlead, -⟩ := (hfits i hi).exists_leadingField
  obtain ⟨r, hr⟩ := List.exists_mem_of_ne_nil rows hrows
  have hone := (describes_histogramOf hmemory hbuckets hlead).one _
    (List.mem_map_of_mem (f := (t.valueOf · field)) hr)
  rw [hempty] at hone
  cases hone

end Gather

theorem histogramOf_congr (hi : i.leadingField? = some field) {j : Index}
    (hj : j.leadingField? = some field) :
    histogramOf t rows buckets i = histogramOf t rows buckets j := by
  rw [histogramOf, histogramOf, Index.leads_eq hi, Index.leads_eq hj]

section Lookup

variable {snapshot : StatisticsSnapshot}
  (hkept : snapshot.histograms = indexes.map fun i => (i, histogramOf t rows buckets i))
include hkept

theorem histogram?_of_kept (hnames : (indexes.map (·.name)).Nodup) (hi : i ∈ indexes) :
    snapshot.histogram? i.name = some (histogramOf t rows buckets i) := by
  have hfind : indexes.find? ((fun p : Index × Histogram => p.1.name == i.name) ∘
      fun i => (i, histogramOf t rows buckets i)) = some i := find?_name_eq_some hnames hi
  rw [histogram?, hkept, List.find?_map, hfind]
  rfl

/-- **The first index that leads with a field speaks for all of them.** -/
theorem fieldHistogram?_of_kept (hi : i ∈ indexes) (hlead : i.leadingField? = some field) :
    snapshot.fieldHistogram? field = some (histogramOf t rows buckets i) := by
  obtain ⟨j, hfind⟩ : ∃ j, indexes.find? ((fun p : Index × Histogram =>
      p.1.leadingField? == some field) ∘ fun i => (i, histogramOf t rows buckets i)) = some j :=
    Option.isSome_iff_exists.1 (List.find?_isSome.2 ⟨i, hi, by simp [hlead]⟩)
  have hj : j.leadingField? = some field := by simpa using List.find?_some hfind
  rw [fieldHistogram?, hkept, List.find?_map, hfind]
  exact congrArg some (histogramOf_congr hj hlead)

end Lookup

/-- **What a snapshot has to say of rows that were analyzed.** -/
theorem gather_withRows_exact (hvalid : ∀ r ∈ rows, t.validate r = .ok ())
    (hmemory : rows.length < UInt64.size) (hnames : (indexes.map (·.name)).Nodup)
    (hfits : ∀ i ∈ indexes, Catalog.Fits t i) (s : Statistics) (buckets : Nat) :
    let snapshot := gather (s.withRows t rows buckets indexes).toSource t indexes
    snapshot.rejected = [] ∧ snapshot.rowCount?.map (·.toNat) = some rows.length ∧
      (∀ field, t.hasField field = true → (snapshot.distinct? field).map (·.toNat) =
        some (rows.map (t.valueOf · field)).dedup.length) ∧
      (0 < buckets → rows ≠ [] → ∀ i ∈ indexes, ∃ field histogram, i.leadingField? = some field ∧
        snapshot.histogram? i.name = some histogram ∧
        snapshot.fieldHistogram? field = some histogram ∧
        histogram.Describes (rows.map (t.valueOf · field)) ∧
        histogram.total.toNat = rows.length) := by
  obtain ⟨htable, hrejected⟩ := gather_withRows hvalid hmemory hnames hfits s buckets
  refine ⟨hrejected, ?_, fun field hfield => ?_, fun hbuckets hrows i hi => ?_⟩
  · rw [rowCount?, htable, Option.map_some, Option.map_some, rowCount_count t hmemory]
  · rw [distinct?, htable, Option.bind_some]
    exact lookup?_count hvalid hmemory hfield
  · obtain ⟨field, hlead, -⟩ := (hfits i hi).exists_leadingField
    -- the field may lead several indexes, but all their histograms describe its values
    have hkept := gather_withRows_histograms hvalid hmemory hnames hfits s hbuckets hrows
    have hdescribes := describes_histogramOf (t := t) hmemory hbuckets hlead
    refine ⟨field, _, hlead, histogram?_of_kept hkept hnames hi,
      fieldHistogram?_of_kept hkept hi hlead, hdescribes, ?_⟩
    rw [hdescribes.total, List.length_map]

end Statistics

open StatisticsSnapshot

/-- **What analysis collects is accepted and exact.** Whatever can be seen of a store, and whatever
was collected before, analysis succeeds unless there are records, an index that plans may use, and
more buckets asked for than a list has room for. A snapshot of its statistics rejects nothing and
has the number of stored records and, for each field, that of its distinct values. If there are
records and buckets, it has a histogram of every index that plans may use; this histogram describes
the values of the leading field, answers for that field, and its counts add up to the number of
records. There are fewer than `UInt64.size` records in memory. -/
theorem StoreView.Reachable.analysis_exact {c : Catalog} (hc : c.Registered) {v : StoreView}
    (h : v.Reachable c) {t : RecordType} (ht : c.recordType? t.name = some t)
    (hmemory : (v.recordsOf t.name).length < UInt64.size) (s : Statistics) (room buckets : Nat) :
    ((∃ analyzed, (s.refresh room v t buckets).run.Gives (some analyzed)) ↔
        v.recordsOf t.name = [] ∨ c.plannableIndexes t.name = [] ∨ buckets ≤ room) ∧
      ∀ analyzed : Statistics, (s.refresh room v t buckets).run.Gives (some analyzed) →
        let snapshot := gather analyzed.toSource t (c.plannableIndexes t.name)
        snapshot.rejected = [] ∧
          snapshot.rowCount?.map (·.toNat) = some (v.recordsOf t.name).length ∧
          (∀ field, t.hasField field = true → (snapshot.distinct? field).map (·.toNat) =
            some ((v.recordsOf t.name).map (t.valueOf · field)).dedup.length) ∧
          (0 < buckets → v.recordsOf t.name ≠ [] → ∀ i ∈ c.plannableIndexes t.name,
            ∃ field histogram, i.leadingField? = some field ∧
              snapshot.histogram? i.name = some histogram ∧
              snapshot.fieldHistogram? field = some histogram ∧
              histogram.Describes ((v.recordsOf t.name).map (t.valueOf · field)) ∧
              histogram.total.toNat = (v.recordsOf t.name).length) := by
  have hserves := h.serves hc.sound ht
  have hnames := hc.sound.plannable_nodup t.name
  have hfits : ∀ i ∈ c.plannableIndexes t.name, Catalog.Fits t i := fun i hi =>
    hc.sound.fits ht (Catalog.mem_plannableIndexes.1 hi).1
  have hcatalog := h.catalog_eq hc.sound
  have hgives :=
    Statistics.refresh_gives (by rw [hcatalog]; exact hc.sound) hserves s room buckets
  rw [hcatalog] at hgives
  -- the scans have one outcome, so what analysis gives is what they give here
  by_cases hroom : v.recordsOf t.name = [] ∨ c.plannableIndexes t.name = [] ∨ buckets ≤ room
  · rw [if_pos hroom] at hgives
    refine ⟨iff_of_true ⟨_, hgives⟩ hroom, fun analyzed hanalyzed => ?_⟩
    obtain rfl := Option.some.inj (hgives.unique hanalyzed)
    exact Statistics.gather_withRows_exact hserves.valid hmemory hnames hfits s buckets
  · rw [if_neg hroom] at hgives
    have hnone : ∀ analyzed, ¬ (s.refresh room v t buckets).run.Gives (some analyzed) :=
      fun analyzed hanalyzed => nomatch hgives.unique hanalyzed
    exact ⟨iff_of_false (fun ⟨analyzed, h⟩ => hnone analyzed h) hroom,
      fun analyzed h => absurd h (hnone analyzed)⟩

open Sample in
/-- Of the two items left one has no size. The null counts as a value, and each has a bucket. -/
theorem StoreView.Reachable.analysis_exact_restocked : Catalog.Registered ranked ∧
    restocked.Reachable ranked ∧ ranked.recordType? items.name = some items ∧
      (restocked.recordsOf items.name).length < UInt64.size ∧
      ∃ analyzed : Statistics,
        (Statistics.refresh Bucket.room {} restocked items 2).run.Gives (some analyzed) ∧
        let snapshot := gather analyzed.toSource items (ranked.plannableIndexes items.name)
        snapshot.rejected = [] ∧ snapshot.rowCount?.map (·.toNat) = some 2 ∧
          (snapshot.distinct? "size").map (·.toNat) = some 2 ∧
          ∃ histogram, snapshot.histogram? "sizes" = some histogram ∧
            snapshot.fieldHistogram? "size" = some histogram ∧
            histogram.buckets.countP (·.covers .null) = 1 ∧ histogram.total.toNat = 2 := by
  have hrows : restocked.recordsOf items.name = [⟨[.int 1, .null]⟩, ⟨[.int 3, .int 9]⟩] := by
    decide +kernel
  have hmemory : (restocked.recordsOf items.name).length < UInt64.size := by
    rw [hrows]
    decide
  obtain ⟨hsucceeds, hexact⟩ :=
    analysis_exact ranked_registered restocked_reachable (t := items) rfl hmemory {} Bucket.room 2
  obtain ⟨analyzed, hgives⟩ := hsucceeds.2 (.inr (.inr (by decide)))
  obtain ⟨hrejected, hcount, hdistinct, hhistograms⟩ := hexact analyzed hgives
  have hsize := hdistinct "size" (by decide)
  obtain ⟨field, histogram, hlead, hkept, hfield, hdescribes, htotal⟩ :=
    hhistograms (by decide) (by rw [hrows]; simp) sizes (by decide +kernel)
  obtain rfl : "size" = field := Option.some.inj hlead
  rw [hrows] at hcount hsize hdescribes htotal
  exact ⟨ranked_registered, restocked_reachable, rfl, hmemory, analyzed, hgives, hrejected, hcount,
    hsize, histogram, hkept, hfield, hdescribes.one .null (by decide), htotal⟩

end RecordLayer
