import RecordLayer.Proofs.Store.Serving

/-!
# Every admissible set of records can be stored

Valid records with distinct primary keys, of which no two share the key of a unique index, can be
inserted into an empty store. So what the soundness of tables demands of a state is all that it
takes for the state to be reachable.

The proof follows the insertion: the transaction keeps a sound table that holds the records saved so
far, a further admissible record violates nothing, and a transaction that only wrote a new table
meets no conflict.
-/

namespace RecordLayer

/-- The records can stand in one table. -/
structure Catalog.Admits (c : Catalog) (t : RecordType) (records : List Record) : Prop where
  valid : ∀ r ∈ records, t.validate r = .ok ()
  keys : records.Pairwise fun a b => t.keyOf a ≠ t.keyOf b
  unique : ∀ i ∈ c.plannableIndexes t.name, i.unique = true →
    records.Pairwise fun a b => i.keyOf t a ≠ i.keyOf t b

namespace Table

variable {t : RecordType} {indexes : List Index} {table : Table} {r : Record}

/-- A record whose keys no row has violates no unique index. -/
theorem Keeps.violation?_eq_none (h : table.Keeps t indexes)
    (hunique : ∀ i ∈ indexes, i.unique = true → ∀ s ∈ table.rows, i.keyOf t s ≠ i.keyOf t r) :
    table.violation? t indexes r = none := by
  refine List.find?_eq_none.2 fun i hi => ?_
  obtain ⟨hi, hu⟩ := List.mem_filter.1 hi
  obtain ⟨d, hd, hkeeps⟩ := h.index i hi
  simp only [hd, List.any_eq_true, not_exists, not_and]
  intro e he hkey
  obtain ⟨s, hs, rfl⟩ := (hkeeps.mem e).1 he
  rw [Bool.and_eq_true, decide_eq_true_iff] at hkey
  exact hunique i hi hu s hs hkey.1

/-- Removing a record that is not there changes nothing. -/
theorem unlink_of_free (hfree : table.records.lookup? (t.keyOf r) = none) :
    table.unlink t indexes (t.keyOf r) = table := by
  rw [unlink, hfree]

theorem Keeps.lookup?_eq_none (h : table.Keeps t indexes)
    (hfree : ∀ s ∈ table.rows, t.keyOf s ≠ t.keyOf r) :
    table.records.lookup? (t.keyOf r) = none := by
  cases hl : table.records.lookup? (t.keyOf r) with
  | none => rfl
  | some old =>
    have hmem := SortedMap.mem_of_lookup? hl
    exact absurd (h.filed _ hmem).1 (hfree old (List.mem_map.2 ⟨_, hmem, rfl⟩))

theorem rows_link (hfree : table.records.lookup? (t.keyOf r) = none) :
    (table.link t indexes r).rows.Perm (r :: table.rows) := by
  rw [rows, rows, link_records]
  exact (SortedMap.perm_put hfree r).map (·.2)

end Table

namespace Transaction

/-- The transaction began on an empty store and saved just these records of a type. -/
structure Saved (s : Store) (t : RecordType) (x : Transaction) (records : List Record) : Prop where
  isOpen : x.isOpen = true
  keeps : ((x.tables.lookup? t.name).getD (s.newTable t.name)).Keeps t
    (s.catalog.plannableIndexes t.name)
  rows : ((x.tables.lookup? t.name).getD (s.newTable t.name)).rows.Perm records
  begun : x.beginVersions = []
  read : x.read = []
  written : x.written = [t.name] ∧ (∃ table, x.tables.lookup? t.name = some table) ∨
    x.written = [] ∧ records = []

variable {s : Store} {t : RecordType} {x : Transaction} {records : List Record}

theorem saved_begin (hc : s.catalog.Sound) (hempty : s.committed = []) : Saved s t s.begin [] where
  isOpen := rfl
  keeps := by
    rw [Store.begin, hempty]
    exact Table.keeps_empty t (hc.plannable_nodup t.name) s.heights
  rows := by
    rw [Store.begin, hempty]
    exact .refl _
  begun := by rw [Store.begin, hempty]; rfl
  read := rfl
  written := .inr ⟨rfl, rfl⟩

/-- **A further admissible record is saved.** -/
theorem Saved.save (h : Saved s t x records) (hc : s.catalog.Sound)
    (ht : s.catalog.recordType? t.name = some t) {r : Record}
    (hadmits : s.catalog.Admits t (r :: records)) :
    ∃ x', x.save s t.name r = (.ok (), x') ∧ Saved s t x' (r :: records) := by
  have hn := hc.plannable_nodup t.name
  have hvalid := hadmits.valid r (by simp)
  generalize htable : (x.tables.lookup? t.name).getD (s.newTable t.name) = table
  have hkeeps := htable ▸ h.keeps
  have hrows := htable ▸ h.rows
  -- no record in the table has the key, as the record is new both to the store and to the list
  have hfree : table.records.lookup? (t.keyOf r) = none := hkeeps.lookup?_eq_none fun a ha heq =>
    (List.pairwise_cons.1 hadmits.keys).1 a (hrows.mem_iff.1 ha) heq.symm
  have hunique : ∀ i ∈ s.catalog.plannableIndexes t.name, i.unique = true →
      ∀ a ∈ table.rows, i.keyOf t a ≠ i.keyOf t r := fun i hi hu a ha heq =>
    (List.pairwise_cons.1 (hadmits.unique i hi hu)).1 a (hrows.mem_iff.1 ha) heq.symm
  have hsave : x.save s t.name r =
      (.ok (), x.wrote t.name (table.link t (s.catalog.plannableIndexes t.name) r)) := by
    rw [save_eq h.isOpen, Store.saveInto, ht]
    simp only [hvalid, htable, hkeeps.violation?_eq_none hunique, Table.unlink_of_free hfree]
  refine ⟨_, hsave, h.isOpen, ?_, ?_, h.begun, h.read,
    .inl ⟨?_, _, SortedMap.lookup?_put_self _ _ _⟩⟩
  · rw [wrote, SortedMap.lookup?_put_self]
    exact hkeeps.link hn hfree hvalid hunique
  · rw [wrote, SortedMap.lookup?_put_self]
    exact (Table.rows_link hfree).trans (hrows.cons r)
  · rcases h.written with ⟨hwritten, -⟩ | ⟨hwritten, -⟩ <;> simp [wrote, addName, hwritten]

theorem Saved.saveAll (hc : s.catalog.Sound) (ht : s.catalog.recordType? t.name = some t) :
    ∀ {more records : List Record} {x : Transaction}, Saved s t x records →
      s.catalog.Admits t (more.reverse ++ records) →
      ∃ x', x.saveAll s t.name more = (.ok (), x') ∧
        Saved s t x' (more.reverse ++ records)
  | [], records, x, h, _ => ⟨x, rfl, h⟩
  | r :: rest, records, x, h, hadmits => by
    rw [List.reverse_cons, List.append_assoc, List.singleton_append] at hadmits ⊢
    have hnow : s.catalog.Admits t (r :: records) :=
      ⟨fun a ha => hadmits.valid a (List.mem_append_right _ ha),
        (List.pairwise_append.1 hadmits.keys).2.1,
        fun i hi hu => (List.pairwise_append.1 (hadmits.unique i hi hu)).2.1⟩
    obtain ⟨x₁, hsave, hsaved⟩ := h.save hc ht hnow
    obtain ⟨x', hrest, hx'⟩ := hsaved.saveAll hc ht hadmits
    refine ⟨x', ?_, hx'⟩
    rw [Transaction.saveAll, hsave]
    exact hrest

/-- A transaction that only wrote a new table commits, and the records are stored. -/
theorem Saved.commit (h : Saved s t x records) (ht : s.catalog.recordType? t.name = some t)
    (hempty : s.committed = []) : ∃ s', (x.commit s).1 = .ok s' ∧
      (s'.view.recordsOf t.name).Perm records := by
  rw [Transaction.commit, h.isOpen, if_neg (by simp)]
  rcases h.written with ⟨hwritten, table, htable⟩ | ⟨hwritten, rfl⟩
  · -- an empty store has no versions that a commit could conflict with
    have hconflict : x.conflict? s = none := by
      refine List.find?_eq_none.2 fun name _ => ?_
      simp [versionIn, versionAtBegin, hempty, h.begun, SortedMap.lookup?]
    simp only [hwritten, List.isEmpty_cons, hconflict]
    have hkeeps := h.keeps
    have hrows := h.rows
    rw [htable, Option.getD_some] at hkeeps hrows
    let published : Table := { table with version := x.versionAtBegin t.name + 1 }
    have hpublished : ([t.name].foldl x.publish s.committed).lookup? t.name = some published := by
      rw [List.foldl_cons, List.foldl_nil, publish, htable, SortedMap.lookup?_put_self]
    have hserves := StoreView.serves_of_keeps ht hpublished
      ⟨hkeeps.ascending, hkeeps.filed, hkeeps.index, hkeeps.unique⟩
    refine ⟨_, rfl, ?_⟩
    rw [Store.view, hserves.recordsOf]
    exact hrows
  · simp only [hwritten, List.isEmpty_nil]
    refine ⟨s, rfl, ?_⟩
    rw [Store.view, hempty]
    exact .refl _

end Transaction

/-- **Every admissible set of records is stored in some reachable state.** -/
theorem Store.exists_reachable {c : Catalog} (hc : c.Sound) {t : RecordType}
    (ht : c.recordType? t.name = some t) {records : List Record} (h : c.Admits t records) :
    ∃ s : Store, s.Reachable c ∧ (s.view.recordsOf t.name).Perm records := by
  have hperm : (records.reverse.reverse ++ []).Perm records := by simp
  let start : Store := { catalog := c }
  have hadmits : start.catalog.Admits t (records.reverse.reverse ++ []) := by
    rw [List.reverse_reverse, List.append_nil]
    exact h
  obtain ⟨x, hsaves, hsaved⟩ :=
    (Transaction.saved_begin hc rfl : Transaction.Saved start t _ _).saveAll hc ht hadmits
  obtain ⟨s, hcommit, hrecords⟩ := hsaved.commit ht rfl
  have hinsert : start.insertAll t.name records.reverse = .ok s := by
    rw [insertAll, hsaves]
    exact hcommit
  exact ⟨s, reachable_of_insertAll hinsert, hrecords.trans hperm⟩

end RecordLayer
