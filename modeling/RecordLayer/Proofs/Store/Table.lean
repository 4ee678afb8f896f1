import RecordLayer.Proofs.Catalog
import RecordLayer.Proofs.RankedSet.Refinement
import RecordLayer.Proofs.SortedMap
import RecordLayer.Proofs.Value.Order

/-!
# Tables keep their indexes in step

A table is sound if its records are filed under their primary keys, each accepted by the record
type, and if the data of every index is that of the records: the entries are exactly the entries of
the records, in ascending order, the ranking holds exactly their values, and no two records share a
key of a unique index.

* The data of an index depends on the records as a multiset only, so it can be followed through the
  removal of one record and the addition of another.
* Unlinking and linking a record change the data of each index once, because index
  names are distinct.
-/

namespace RecordLayer

/-! ## Entries -/

namespace EntryKey

/-- The entries are strictly ascending. -/
def Ascending (entries : List EntryKey) : Prop := entries.Pairwise fun a b => a.compare b = .lt

theorem mem_insert {e f : EntryKey} {entries : List EntryKey} :
    f ∈ e.insert entries ↔ f = e ∨ f ∈ entries := by
  induction entries with
  | nil => simp [insert]
  | cons g rest ih =>
    unfold insert
    cases hc : e.compare g with
    | lt => simp
    | eq =>
      obtain rfl : e = g := Std.LawfulEqOrd.eq_of_compare (α := EntryKey) hc
      simp
    | gt => simp [ih, or_left_comm]

theorem ascending_insert {e : EntryKey} {entries : List EntryKey} (h : Ascending entries) :
    Ascending (e.insert entries) := by
  induction entries with
  | nil => simp [insert, Ascending]
  | cons g rest ih =>
    obtain ⟨hg, hrest⟩ := List.pairwise_cons.1 h
    unfold insert
    cases hc : e.compare g with
    | lt =>
      refine List.pairwise_cons.2 ⟨fun f hf => ?_, h⟩
      rcases List.mem_cons.1 hf with rfl | hf
      · exact hc
      · exact EntryKey.lt_trans hc (hg f hf)
    | eq => exact h
    | gt =>
      refine List.pairwise_cons.2 ⟨fun f hf => ?_, ih hrest⟩
      rcases mem_insert.1 hf with rfl | hf
      · rw [EntryKey.compare_swap, hc]
        rfl
      · exact hg f hf

theorem mem_erase {e f : EntryKey} {entries : List EntryKey} :
    f ∈ e.erase entries ↔ f ∈ entries ∧ f ≠ e := by
  simp [erase, List.mem_filter]

theorem ascending_erase {e : EntryKey} {entries : List EntryKey} (h : Ascending entries) :
    Ascending (e.erase entries) := List.Pairwise.sublist List.filter_sublist h

end EntryKey

/-! ## Index data -/

/-- The data of an index is that of some records. -/
structure IndexData.Keeps (t : RecordType) (i : Index) (rows : List Record) (d : IndexData) :
    Prop where
  ascending : EntryKey.Ascending d.entries
  mem : ∀ e, e ∈ d.entries ↔ ∃ r ∈ rows, i.entryOf t r = e
  ranked : d.ranks.isSome = i.isRank
  ranks : ∀ ranks, d.ranks = some ranks →
    ∃ values, ranks.Holds values ∧ values.Perm (rows.filterMap fun r => (i.keyOf t r).head?)

namespace IndexData

variable {t : RecordType} {i : Index} {rows rows' : List Record} {d : IndexData}

theorem Keeps.perm (h : d.Keeps t i rows) (hperm : rows.Perm rows') : d.Keeps t i rows' where
  ascending := h.ascending
  mem e := by simp only [h.mem, hperm.mem_iff]
  ranked := h.ranked
  ranks ranks hr :=
    let ⟨values, hholds, hvalues⟩ := h.ranks ranks hr
    ⟨values, hholds, hvalues.trans (hperm.filterMap _)⟩

/-- Adding the entry of a record. -/
theorem Keeps.link (h : d.Keeps t i rows) (r : Record) :
    (d.link (i.entryOf t r)).Keeps t i (r :: rows) where
  ascending := EntryKey.ascending_insert h.ascending
  mem e := by
    simp only [IndexData.link, EntryKey.mem_insert, h.mem, List.mem_cons, exists_eq_or_imp,
      eq_comm (a := e)]
  ranked := by
    rw [← h.ranked, IndexData.link]
    cases (i.entryOf t r).key <;> simp
  ranks ranks hr := by
    cases hkey : i.keyOf t r with
    | nil =>
      simp only [IndexData.link, Index.entryOf, hkey] at hr
      simpa [hkey] using h.ranks ranks hr
    | cons v vs =>
      simp only [IndexData.link, Index.entryOf, hkey] at hr
      obtain ⟨ranks', hr', rfl⟩ := Option.map_eq_some_iff.1 hr
      obtain ⟨values, hholds, hvalues⟩ := h.ranks ranks' hr'
      refine ⟨_, hholds.insert v, (RankedSet.insertSorted_perm v values).trans ?_⟩
      rw [List.filterMap_cons, hkey]
      exact hvalues.cons v

/-- Removing the entry of a record, where no other record has it. -/
theorem Keeps.unlink {r : Record} (h : d.Keeps t i (r :: rows))
    (hr : ∀ s ∈ rows, i.entryOf t s ≠ i.entryOf t r) :
    (d.unlink (i.entryOf t r)).Keeps t i rows where
  ascending := EntryKey.ascending_erase h.ascending
  mem e := by
    simp only [IndexData.unlink, EntryKey.mem_erase, h.mem, List.mem_cons, exists_eq_or_imp]
    constructor
    · rintro ⟨rfl | hs, hne⟩
      · exact absurd rfl hne
      · exact hs
    · rintro ⟨s, hs, rfl⟩
      exact ⟨.inr ⟨s, hs, rfl⟩, hr s hs⟩
  ranked := by
    rw [← h.ranked, IndexData.unlink]
    cases (i.entryOf t r).key <;> simp
  ranks ranks hr' := by
    cases hkey : i.keyOf t r with
    | nil =>
      simp only [IndexData.unlink, Index.entryOf, hkey] at hr'
      simpa [hkey] using h.ranks ranks hr'
    | cons v vs =>
      simp only [IndexData.unlink, Index.entryOf, hkey] at hr'
      obtain ⟨ranks', hsome, rfl⟩ := Option.map_eq_some_iff.1 hr'
      obtain ⟨values, hholds, hvalues⟩ := h.ranks ranks' hsome
      refine ⟨_, hholds.erase v, ?_⟩
      -- the ranked set takes out one value that compares equal, which is the value itself
      have hsame : (fun a => compare a v == .eq) = fun a => v == a := by
        funext a
        rw [Bool.eq_iff_iff, Std.LawfulEqCmp.compare_beq_iff_eq, beq_iff_eq, eq_comm]
      rw [hsame, ← List.erase_eq_eraseP]
      rw [List.filterMap_cons, hkey] at hvalues
      simpa using hvalues.erase v

theorem keeps_empty (t : RecordType) (i : Index) (heights : String → RankedSet.Heights) :
    IndexData.Keeps t i [] (Table.emptyData heights i) where
  ascending := .nil
  mem := by simp [Table.emptyData]
  ranked := by
    rw [Table.emptyData]
    cases i.isRank <;> rfl
  ranks ranks hr := by
    cases hrank : i.isRank with
    | false => simp [Table.emptyData, hrank] at hr
    | true =>
      simp only [Table.emptyData, hrank, if_true, Option.some.injEq] at hr
      subst hr
      exact ⟨[], RankedSet.holds_empty _, .refl _⟩

end IndexData

/-! ## Tables -/

namespace Table

/-- The records in the order of their primary keys. -/
def rows (table : Table) : List Record := table.records.map (·.2)

/-- The table is sound for its record type and indexes. -/
structure Keeps (t : RecordType) (indexes : List Index) (table : Table) : Prop where
  ascending : SortedMap.Ascending table.records
  filed : ∀ p ∈ table.records, t.keyOf p.2 = p.1 ∧ t.validate p.2 = .ok ()
  index : ∀ i ∈ indexes, ∃ d, table.data? i = some d ∧ d.Keeps t i table.rows
  unique : ∀ i ∈ indexes, i.unique = true → ∀ r ∈ table.rows, ∀ s ∈ table.rows,
    i.keyOf t r = i.keyOf t s → t.keyOf r = t.keyOf s

/-! ## Changes of index data -/

theorem data?_updateIndex (table : Table) (i j : Index) (f : IndexData → IndexData) :
    (table.updateIndex j f).data? i =
      if i.name = j.name then (table.data? i).map f else table.data? i := by
  unfold updateIndex
  cases hd : table.data? j with
  | none =>
    by_cases h : i.name = j.name
    · have hi : table.data? i = none := by rw [← hd, data?, data?, h]
      simp [hi]
    · simp [h]
  | some d =>
    show (table.indexes.put j.name (f d)).lookup? i.name = _
    rw [SortedMap.lookup?_put]
    by_cases h : i.name = j.name
    · have hi : table.data? i = some d := by rw [← hd, data?, data?, h]
      simp [h, hi]
    · simp [h, data?]

theorem records_foldl_updateIndex (f : Index → IndexData → IndexData) (indexes : List Index)
    (table : Table) :
    (indexes.foldl (fun table i => table.updateIndex i (f i)) table).records = table.records := by
  induction indexes generalizing table with
  | nil => rfl
  | cons j rest ih =>
    rw [List.foldl_cons, ih]
    unfold updateIndex
    split <;> rfl

theorem data?_foldl_updateIndex_of_not_mem (f : Index → IndexData → IndexData)
    {indexes : List Index} {i : Index} (hi : i.name ∉ indexes.map (·.name)) (table : Table) :
    (indexes.foldl (fun table i => table.updateIndex i (f i)) table).data? i =
      table.data? i := by
  induction indexes generalizing table with
  | nil => rfl
  | cons j rest ih =>
    rw [List.map_cons, List.mem_cons, not_or] at hi
    rw [List.foldl_cons, ih hi.2, data?_updateIndex, if_neg hi.1]

/-- Where names are distinct, changing every index changes each of them once. -/
theorem data?_foldl_updateIndex (f : Index → IndexData → IndexData) {indexes : List Index}
    (hn : (indexes.map (·.name)).Nodup) {i : Index} (hi : i ∈ indexes) (table : Table) :
    (indexes.foldl (fun table i => table.updateIndex i (f i)) table).data? i =
      (table.data? i).map (f i) := by
  induction indexes generalizing table with
  | nil => simp at hi
  | cons j rest ih =>
    rw [List.map_cons, List.nodup_cons] at hn
    rw [List.foldl_cons]
    rcases List.mem_cons.1 hi with rfl | hi
    · rw [data?_foldl_updateIndex_of_not_mem f hn.1, data?_updateIndex, if_pos rfl]
    · have hne : i.name ≠ j.name := fun heq => hn.1 (heq ▸ List.mem_map_of_mem hi)
      rw [ih hn.2 hi, data?_updateIndex, if_neg hne]

/-! ## The empty table -/

theorem data?_empty {indexes : List Index} (hn : (indexes.map (·.name)).Nodup) {i : Index}
    (hi : i ∈ indexes) (heights : String → RankedSet.Heights) :
    (Table.empty indexes heights).data? i = some (emptyData heights i) :=
  SortedMap.lookup?_foldl_put (emptyData heights) hn hi []

theorem keeps_empty (t : RecordType) {indexes : List Index}
    (hn : (indexes.map (·.name)).Nodup) (heights : String → RankedSet.Heights) :
    (Table.empty indexes heights).Keeps t indexes where
  ascending := .nil
  filed := by simp [Table.empty]
  index i hi := ⟨_, data?_empty hn hi heights, IndexData.keeps_empty t i heights⟩
  unique := by simp [Table.rows, Table.empty]

/-! ## Removal and addition of records -/

variable {t : RecordType} {indexes : List Index} {table : Table}

theorem Keeps.mem_rows (h : table.Keeps t indexes) {r : Record} (hr : r ∈ table.rows) :
    (t.keyOf r, r) ∈ table.records ∧ t.validate r = .ok () := by
  obtain ⟨p, hp, rfl⟩ := List.mem_map.1 hr
  obtain ⟨hkey, hvalid⟩ := h.filed p hp
  rw [hkey]
  exact ⟨hp, hvalid⟩

/-- The primary keys of the records are distinct. -/
theorem Keeps.keys_ne (h : table.Keeps t indexes) :
    table.rows.Pairwise fun a b => t.keyOf a ≠ t.keyOf b := by
  refine List.pairwise_map.2 (List.Pairwise.imp_of_mem (fun {p q} hp hq hpq heq => ?_) h.ascending)
  rw [← (h.filed p hp).1, ← (h.filed q hq).1, heq, Value.compare_def, Value.compare_self] at hpq
  cases hpq

/-- A record is determined by its primary key. -/
theorem Keeps.eq_of_keyOf (h : table.Keeps t indexes) {r s : Record} (hr : r ∈ table.rows)
    (hs : s ∈ table.rows) (heq : t.keyOf r = t.keyOf s) : r = s := by
  have hlr := SortedMap.lookup?_of_mem h.ascending (h.mem_rows hr).1
  have hls := SortedMap.lookup?_of_mem h.ascending (h.mem_rows hs).1
  rw [heq, hls] at hlr
  exact (Option.some.inj hlr).symm

theorem unlink_records (table : Table) (t : RecordType) (indexes : List Index) (pk : Value) :
    (table.unlink t indexes pk).records =
      if (table.records.lookup? pk).isSome then SortedMap.drop pk table.records
      else table.records := by
  unfold unlink
  cases hl : table.records.lookup? pk with
  | none => simp
  | some old =>
    simp only [Option.isSome_some, if_true]
    exact records_foldl_updateIndex (fun i d => d.unlink ⟨i.keyOf t old, pk⟩) indexes _

theorem link_records (table : Table) (t : RecordType) (indexes : List Index) (r : Record) :
    (table.link t indexes r).records = table.records.put (t.keyOf r) r :=
  records_foldl_updateIndex (fun i d => d.link (i.entryOf t r)) indexes _

theorem lookup?_unlink (h : table.Keeps t indexes) (pk : Value) :
    (table.unlink t indexes pk).records.lookup? pk = none := by
  rw [unlink_records]
  cases hl : table.records.lookup? pk with
  | none => simpa using hl
  | some old =>
    rw [Option.isSome_some, if_pos rfl, SortedMap.lookup?_drop h.ascending, if_pos rfl]

theorem mem_rows_unlink {pk : Value} {r : Record} (hr : r ∈ (table.unlink t indexes pk).rows) :
    r ∈ table.rows := by
  rw [rows, unlink_records] at hr
  split at hr
  · exact ((SortedMap.drop_sublist pk table.records).map _).subset hr
  · exact hr

/-- **Removing a record keeps the table sound.** -/
theorem Keeps.unlink (hn : (indexes.map (·.name)).Nodup) (h : table.Keeps t indexes)
    (pk : Value) : (table.unlink t indexes pk).Keeps t indexes := by
  cases hl : table.records.lookup? pk with
  | none =>
    rw [Table.unlink, hl]
    exact h
  | some old =>
    have hrecords : (table.unlink t indexes pk).records = SortedMap.drop pk table.records := by
      rw [unlink_records, hl, Option.isSome_some, if_pos rfl]
    have hperm : table.rows.Perm (old :: (table.unlink t indexes pk).rows) := by
      rw [rows, rows, hrecords]
      exact (SortedMap.perm_drop hl).map (·.2)
    have hold : t.keyOf old = pk := (h.filed _ (SortedMap.mem_of_lookup? hl)).1
    have hlost : ∀ s ∈ (table.unlink t indexes pk).rows, t.keyOf s ≠ pk := by
      intro s hs heq
      rw [rows, hrecords] at hs
      obtain ⟨p, hp, rfl⟩ := List.mem_map.1 hs
      have hmem := (SortedMap.drop_sublist pk table.records).subset hp
      have hfind := SortedMap.lookup?_of_mem (SortedMap.ascending_drop h.ascending pk) hp
      rw [SortedMap.lookup?_drop h.ascending, if_pos ((h.filed p hmem).1 ▸ heq)] at hfind
      cases hfind
    refine ⟨?_, ?_, fun i hi => ?_, fun i hi hu r hr s hs heq => ?_⟩
    · rw [hrecords]
      exact SortedMap.ascending_drop h.ascending pk
    · intro p hp
      rw [hrecords] at hp
      exact h.filed p ((SortedMap.drop_sublist pk table.records).subset hp)
    · obtain ⟨d, hd, hkeeps⟩ := h.index i hi
      refine ⟨d.unlink (i.entryOf t old), ?_, ?_⟩
      · have hfold := data?_foldl_updateIndex (fun i d => d.unlink ⟨i.keyOf t old, pk⟩) hn hi
          { table with records := SortedMap.drop pk table.records }
        rw [Table.unlink, hl]
        refine hfold.trans ?_
        rw [show Table.data? { table with records := SortedMap.drop pk table.records } i = some d
          from hd, Index.entryOf, hold]
        rfl
      · refine (hkeeps.perm hperm).unlink fun s hs heq => hlost s hs ?_
        rw [← hold]
        exact congrArg EntryKey.primaryKey heq
    · exact h.unique i hi hu r (mem_rows_unlink hr) s (mem_rows_unlink hs) heq

/-- **Adding a record keeps the table sound,** if its primary key is free and no unique index holds
its key. -/
theorem Keeps.link (hn : (indexes.map (·.name)).Nodup) (h : table.Keeps t indexes) {r : Record}
    (hfree : table.records.lookup? (t.keyOf r) = none) (hvalid : t.validate r = .ok ())
    (hunique : ∀ i ∈ indexes, i.unique = true → ∀ s ∈ table.rows, i.keyOf t s ≠ i.keyOf t r) :
    (table.link t indexes r).Keeps t indexes := by
  have hrecords := link_records table t indexes r
  have hperm : (r :: table.rows).Perm (table.link t indexes r).rows := by
    rw [rows, rows, hrecords]
    exact ((SortedMap.perm_put hfree r).map (·.2)).symm
  refine ⟨?_, ?_, fun i hi => ?_, fun i hi hu a ha b hb heq => ?_⟩
  · rw [hrecords]
    exact SortedMap.ascending_put h.ascending _ r
  · intro p hp
    rw [hrecords] at hp
    rcases SortedMap.mem_put hp with rfl | hp
    · exact ⟨rfl, hvalid⟩
    · exact h.filed p hp
  · obtain ⟨d, hd, hkeeps⟩ := h.index i hi
    refine ⟨d.link (i.entryOf t r), ?_, (hkeeps.link r).perm hperm⟩
    -- every index gets the entry of the record in its own data
    have hfold := data?_foldl_updateIndex (fun i d => d.link (i.entryOf t r)) hn hi
      { table with records := table.records.put (t.keyOf r) r }
    refine hfold.trans ?_
    rw [show Table.data? { table with records := table.records.put (t.keyOf r) r } i = some d
      from hd]
    rfl
  · -- two records with equal keys: not the new one and an old one, as the key of the new one is
    -- free
    rcases List.mem_cons.1 (hperm.mem_iff.2 ha) with hra | hta <;>
      rcases List.mem_cons.1 (hperm.mem_iff.2 hb) with hrb | htb
    · rw [hra, hrb]
    · exact absurd (hra ▸ heq.symm) (hunique i hi hu b htb)
    · exact absurd (hrb ▸ heq) (hunique i hi hu a hta)
    · exact h.unique i hi hu a hta b htb heq

/-- What a check for violations finds out about the records that stay. -/
theorem Keeps.ne_of_violation?_eq_none (h : table.Keeps t indexes) {r : Record}
    (hv : table.violation? t indexes r = none) {i : Index} (hi : i ∈ indexes)
    (hu : i.unique = true) {s : Record}
    (hs : s ∈ (table.unlink t indexes (t.keyOf r)).rows)
    (hkept : (table.unlink t indexes (t.keyOf r)).Keeps t indexes) :
    i.keyOf t s ≠ i.keyOf t r := by
  intro heq
  obtain ⟨d, hd, hkeeps⟩ := h.index i hi
  have hmem : i.entryOf t s ∈ d.entries := (hkeeps.mem _).2 ⟨s, mem_rows_unlink hs, rfl⟩
  have hne : t.keyOf s ≠ t.keyOf r := by
    intro hkey
    have := SortedMap.lookup?_of_mem hkept.ascending (hkept.mem_rows hs).1
    rw [hkey, lookup?_unlink h] at this
    cases this
  have hnone := List.find?_eq_none.1 hv i (List.mem_filter.2 ⟨hi, hu⟩)
  simp only [hd, List.any_eq_true, not_exists, not_and] at hnone
  refine hnone _ hmem ?_
  simp [Index.entryOf, heq, hne]

end Table

end RecordLayer
