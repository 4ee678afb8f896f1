import RecordLayer.Proofs.Store.Replay
import RecordLayer.Proofs.Store.Serving

/-!
# What a shared store shows is in step

Callers look at a shared store in two ways: at what was committed, and through a transaction that
has not ended. `SharedStore.Shows` says what they can see there. Every table that they see is sound,
so what a rank index is asked can be answered from the records alone: ranks count the records with a
smaller value, and the value at a rank stands at that place among the sorted values.

Records, entries and rankings are updated one after the other, but no caller sees a state in
between: the operations of a run are whole saves, deletions and commits, and each leaves sound
tables behind. So a scan of an index never meets an entry without a record.
-/

namespace RecordLayer

/-! ## What can be seen -/

/-- What callers of a shared store look at: the committed state and the transactions that have not
ended. -/
inductive SharedStore.Shows (y : SharedStore) : StoreView → Prop
  | committed : Shows y y.store.view
  | transaction {t : Transaction} (ht : t ∈ y.transactions) (hopen : t.isOpen = true) :
    Shows y (t.view y.store.catalog)

/-- What can be seen at some point while transactions work on a store over a catalog. -/
def StoreView.Reachable (c : Catalog) (v : StoreView) : Prop :=
  ∃ heights ops history y,
    SharedStore.run { catalog := c, heights } ops = some (history, y) ∧ y.Shows v

/-- The committed state of a store that can be reached can be seen. -/
theorem Store.Reachable.view {c : Catalog} {s : Store} (h : s.Reachable c) :
    s.view.Reachable c := by
  obtain ⟨heights, ops, history, transactions, hrun⟩ := h
  exact ⟨heights, ops, history, ⟨s, transactions⟩, hrun, .committed⟩

namespace StoreView.Reachable

variable {c : Catalog} {v : StoreView}

/-- What can be seen are sound tables, without faults. -/
theorem eq_tables (hc : c.Sound) (h : v.Reachable c) :
    v = { catalog := c, tables := v.tables } ∧ c.Keeps v.tables := by
  obtain ⟨heights, ops, history, y, hrun, hshows⟩ := h
  obtain ⟨rfl, hcommitted, htransactions⟩ := SharedStore.run_kept hc rfl rfl hrun
  cases hshows with
  | committed => exact ⟨rfl, hcommitted⟩
  | @transaction t ht hopen =>
    -- while it is open, a transaction reads its own tables and reports no fault
    refine ⟨?_, htransactions t ht⟩
    rw [Transaction.view, hopen]

theorem catalog_eq (hc : c.Sound) (h : v.Reachable c) : v.catalog = c :=
  congrArg StoreView.catalog (h.eq_tables hc).1

/-- **What can be seen serves its records.** -/
theorem serves (hc : c.Sound) (h : v.Reachable c) {t : RecordType}
    (ht : c.recordType? t.name = some t) : v.Serves t (v.recordsOf t.name) := by
  obtain ⟨heq, hkeeps⟩ := h.eq_tables hc
  rw [heq]
  exact hkeeps.serves ht

/-- **The tables that can be seen are in step with their records.** Whatever transactions did
before, in the committed state and in every open transaction the records are filed under their
primary keys and accepted by their type, the entries of every index are those of the records, a
ranking holds just their values, and no two records share a key of a unique index. So a rank
index answers how many records have a smaller value, which value stands at a rank, and how many
records there are. -/
theorem in_step (hc : c.Registered) (h : v.Reachable c) :
    v.catalog = c ∧ c.Keeps v.tables ∧
      ∀ t, c.recordType? t.name = some t → ∀ i ∈ c.plannableIndexes t.name, i.isRank = true →
        ∃ field, i.keyFields = [field] ∧
          v.AnswersFrom i ((v.recordsOf t.name).map (t.valueOf · field)) := by
  have hcatalog := h.catalog_eq hc.sound
  refine ⟨hcatalog, (h.eq_tables hc.sound).2, fun t ht i hi hrank => ?_⟩
  have hfits := hc.sound.fits ht (Catalog.mem_plannableIndexes.1 hi).1
  obtain ⟨field, hfield⟩ := List.length_eq_one_iff.1 (hfits.rank hrank)
  refine ⟨field, hfield, (h.serves hc.sound ht).answersFrom ?_ hrank hfield⟩
  rw [hcatalog]
  exact hi

/-- **A scan of an index is exact.** Whatever the range, the rows of the scan are the entries of
the index with a key in it, strictly ascending, and each comes from a stored record with a key in
the range and carries the fields of this very record. Pulled as often as one likes, each pull
searching anew behind the entry given last, the scan gives them one after the other and then
nothing, without an error. -/
theorem scan_exact (hc : c.Registered) (h : v.Reachable c) {t : RecordType}
    (ht : c.recordType? t.name = some t) {i : Index} (hi : i ∈ c.plannableIndexes t.name)
    (range : KeyRange) :
    ∃ rows : List IndexEntry,
      (rows.map fun e => ⟨e.key, e.primaryKey⟩) =
          (v.entryKeys i).filter (fun e => range.contains e.key) ∧
        (rows.Pairwise fun a b =>
          EntryKey.compare ⟨a.key, a.primaryKey⟩ ⟨b.key, b.primaryKey⟩ = .lt) ∧
        (∀ e, e ∈ rows ↔ ∃ r ∈ v.recordsOf t.name, range.contains (i.keyOf t r) = true ∧
          e = ⟨i.keyOf t r, t.keyOf r, i.project t r⟩) ∧
        (∀ count, v.pullEntries t i range count {} =
          (List.range count).map fun k => rows[k]?.map .entry) ∧
        ∀ consistency, (v.entries i range consistency).Gives rows := by
  have hserves := h.serves hc.sound ht
  rw [← h.catalog_eq hc.sound] at hi
  have hsorted := i.sorted_ascending t hserves.keys_ne
  refine ⟨((i.sorted t (v.recordsOf t.name)).filter fun r => range.contains (i.keyOf t r)).map
    fun r => ⟨i.keyOf t r, t.keyOf r, i.project t r⟩, ?_, ?_, fun e => ?_, fun count => ?_,
    hserves.entries_gives hi range⟩
  · rw [hserves.entryKeys i hi, List.filter_map, List.map_map]
    rfl
  · exact List.pairwise_map.2 (List.Pairwise.sublist List.filter_sublist hsorted)
  · -- sorting loses no record and adds none
    simp only [List.mem_map, List.mem_filter, (i.sorted_perm t _).mem_iff, and_assoc, eq_comm]
  · rw [hserves.pulled i hi]
    refine List.map_congr_left fun k _ => ?_
    rw [List.getElem?_map, Option.map_map]
    rfl

end StoreView.Reachable

/-! ## A transaction that has not ended -/

namespace Sample

/-- Items ranked by sizes that some of them may share. -/
def sizes : Index := ⟨"sizes", "items", ["size"], false, .rank, []⟩

/-- Items by size and number. -/
def byPair : Index := ⟨"by_pair", "items", ["size", "id"], true, .value, []⟩

/-- Items with both indexes. -/
def ranked : Catalog := ⟨[items], [byPair, sizes]⟩

theorem ranked_registered : Catalog.Registered ranked :=
  .index (i := sizes) (.index (i := byPair) (.type (t := items) .empty rfl) rfl) rfl

/-- Of three items, one loses its size and one is deleted, but the transaction does not commit. -/
def restock : List Operation := [
  .request 0 (.delete "items" (.int 2)), .request 0 (.save "items" ⟨[.int 1, .null]⟩), .begin,
  .insert "items" [⟨[.int 1, .int 5]⟩, ⟨[.int 2, .int 5]⟩, ⟨[.int 3, .int 9]⟩]]

/-- What the transaction shows. -/
def restocked : StoreView :=
  match SharedStore.run { catalog := ranked } restock with
  | some (_, ⟨store, t :: _⟩) => t.view store.catalog
  | _ => { catalog := ranked, tables := [] }

theorem restocked_reachable : restocked.Reachable ranked := by
  have hrun : ((SharedStore.run { catalog := ranked } restock).map fun z =>
      z.2.transactions.map (·.isOpen)) = some [true] := by decide +kernel
  obtain ⟨⟨history, store, transactions⟩, h, hopen⟩ := Option.map_eq_some_iff.1 hrun
  cases transactions with
  | nil => cases hopen
  | cons t rest =>
    refine ⟨fun _ => .ruler, restock, history, ⟨store, t :: rest⟩, h, ?_⟩
    rw [restocked, h]
    exact .transaction (by simp) (List.cons.inj hopen).1

-- its save and its deletion are seen before it commits
example : restocked.recordsOf "items" = [⟨[.int 1, .null]⟩, ⟨[.int 3, .int 9]⟩] := by
  decide +kernel

end Sample

open Sample in
theorem StoreView.Reachable.in_step_restocked : Catalog.Registered ranked ∧
    restocked.Reachable ranked ∧ restocked.catalog = ranked ∧ ranked.Keeps restocked.tables ∧
      ∀ t, ranked.recordType? t.name = some t → ∀ i ∈ ranked.plannableIndexes t.name,
        i.isRank = true → ∃ field, i.keyFields = [field] ∧
          restocked.AnswersFrom i ((restocked.recordsOf t.name).map (t.valueOf · field)) :=
  ⟨ranked_registered, restocked_reachable, in_step ranked_registered restocked_reachable⟩

open Sample StoreView in
/-- Of the two items left one has no size: a scan of the sizes above `Null` gives one row. -/
theorem StoreView.Reachable.scan_exact_restocked : Catalog.Registered ranked ∧
    restocked.Reachable ranked ∧ ranked.recordType? items.name = some items ∧
      sizes ∈ ranked.plannableIndexes items.name ∧
        let range : KeyRange := ⟨[], .excluded .null, .unbounded⟩
        ∃ row, restocked.pullEntries items sizes range 3 {} = [some (.entry row), none, none] ∧
          ∀ consistency, (restocked.entries sizes range consistency).Gives [row] := by
  have hi : sizes ∈ ranked.plannableIndexes items.name := by decide +kernel
  obtain ⟨rows, hkeys, -, -, hpulls, hgives⟩ := scan_exact ranked_registered restocked_reachable
    (t := items) rfl hi ⟨[], .excluded .null, .unbounded⟩
  have hlength : rows.length = 1 := by
    have hlength := congrArg List.length hkeys
    rw [List.length_map] at hlength
    rw [hlength]
    decide +kernel
  obtain ⟨row, rfl⟩ := List.length_eq_one_iff.1 hlength
  exact ⟨ranked_registered, restocked_reachable, rfl, hi, row, hpulls 3, hgives⟩

end RecordLayer
