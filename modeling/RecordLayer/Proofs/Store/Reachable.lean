import RecordLayer.Proofs.Store.Exchange
import RecordLayer.Proofs.Store.Table

/-!
# Reachable states keep their tables sound

Whatever transactions do to a store, every committed table and every table of a transaction is
sound: it is that of a registered record type, and its indexes are in step with its records. Saving
and deleting work on one table, and beginning and committing move whole tables about, so nothing
more than the soundness of each table has to be followed.
-/

namespace RecordLayer

/-- Every table is sound for its record type and the indexes that plans may scan. -/
def Catalog.Keeps (c : Catalog) (tables : Tables) : Prop :=
  ∀ name table, tables.lookup? name = some table →
    ∃ t, c.recordType? name = some t ∧ table.Keeps t (c.plannableIndexes name)

namespace Catalog.Keeps

variable {c : Catalog} {tables : Tables}

theorem nil (c : Catalog) : c.Keeps [] := fun _ _ h => by cases h

theorem put (h : c.Keeps tables) {name : String} {t : RecordType} {table : Table}
    (ht : c.recordType? name = some t) (htable : table.Keeps t (c.plannableIndexes name)) :
    c.Keeps (tables.put name table) := by
  intro name' table' hl
  rw [SortedMap.lookup?_put] at hl
  by_cases heq : name' = name
  · rw [if_pos heq] at hl
    obtain rfl := Option.some.inj hl
    exact ⟨t, heq ▸ ht, heq ▸ htable⟩
  · rw [if_neg heq] at hl
    exact h name' table' hl

/-- The table that a save starts from. -/
theorem getD (hc : c.Sound) (h : c.Keeps tables) {name : String} {t : RecordType}
    (ht : c.recordType? name = some t) (heights : String → RankedSet.Heights) :
    ((tables.lookup? name).getD (.empty (c.plannableIndexes name) heights)).Keeps t
      (c.plannableIndexes name) := by
  cases hl : tables.lookup? name with
  | none => exact Table.keeps_empty t (hc.plannable_nodup name) heights
  | some table =>
    obtain ⟨t', ht', hkeeps⟩ := h name table hl
    rw [ht] at ht'
    rwa [Option.some.inj ht']

end Catalog.Keeps

/-! ## Transactions -/

namespace Transaction

variable {s : Store} {t t' : Transaction}

theorem save_keeps (hc : s.catalog.Sound) (ht : s.catalog.Keeps t.tables) {recordType : String}
    {r : Record} {u : Unit} (h : t.save s recordType r = (.ok u, t')) :
    s.catalog.Keeps t'.tables := by
  obtain ⟨-, table, htable, rfl⟩ := save_eq_ok h
  obtain ⟨type, hty, hv, hviolation, rfl⟩ := Store.saveInto_eq_ok htable
  have hn := hc.plannable_nodup recordType
  have hkeeps := Catalog.Keeps.getD hc ht hty s.heights
  have hunlinked := hkeeps.unlink hn (type.keyOf r)
  refine ht.put hty (hunlinked.link hn (Table.lookup?_unlink hkeeps _) hv ?_)
  exact fun i hi hu a ha => hkeeps.ne_of_violation?_eq_none hviolation hi hu ha hunlinked

theorem delete_keeps (hc : s.catalog.Sound) (ht : s.catalog.Keeps t.tables) {recordType : String}
    {pk : Value} {found : Bool} (h : t.delete s recordType pk = .ok (found, t')) :
    s.catalog.Keeps t'.tables := by
  unfold delete at h
  split at h
  · cases h
  · cases hty : s.catalog.recordType? recordType with
    | none => simp [hty] at h
    | some type =>
      simp only [hty] at h
      cases hl : t.tables.lookup? recordType with
      | none =>
        simp only [hl, Except.ok.injEq, Prod.mk.injEq] at h
        rwa [← h.2]
      | some table =>
        simp only [hl] at h
        split at h
        · simp only [Except.ok.injEq, Prod.mk.injEq] at h
          rw [← h.2]
          -- a record was found, and is unlinked from a table that keeps its promises
          obtain ⟨type', hty', htable⟩ := ht recordType table hl
          obtain rfl : type = type' := Option.some.inj (hty.symm.trans hty')
          exact ht.put hty (htable.unlink (hc.plannable_nodup recordType) pk)
        · simp only [Except.ok.injEq, Prod.mk.injEq] at h
          rwa [← h.2]

theorem publish_keeps {c : Catalog} {committed : Tables} (ht : c.Keeps t.tables)
    (hs : c.Keeps committed) (name : String) : c.Keeps (t.publish committed name) := by
  unfold publish
  cases hl : t.tables.lookup? name with
  | none => exact hs
  | some table =>
    obtain ⟨type, hty, hkeeps⟩ := ht name table hl
    exact hs.put hty ⟨hkeeps.ascending, hkeeps.filed, hkeeps.index, hkeeps.unique⟩

theorem foldl_publish_keeps {c : Catalog} (ht : c.Keeps t.tables) (names : List String)
    {committed : Tables} (hs : c.Keeps committed) :
    c.Keeps (names.foldl t.publish committed) := by
  induction names generalizing committed with
  | nil => exact hs
  | cons n names ih => exact ih (publish_keeps ht hs n)

theorem commit_keeps (hs : s.catalog.Keeps s.committed) (ht : s.catalog.Keeps t.tables)
    {s' : Store} {outcome : Transaction} (h : t.commit s = (.ok s', outcome)) :
    s'.catalog = s.catalog ∧ s.catalog.Keeps s'.committed := by
  unfold commit at h
  split at h
  · simp at h
  · split at h
    · simp only [Prod.mk.injEq, Except.ok.injEq] at h
      rw [← h.1]
      exact ⟨rfl, hs⟩
    · split at h
      · simp at h
      · simp only [Prod.mk.injEq, Except.ok.injEq] at h
        rw [← h.1]
        exact ⟨rfl, foldl_publish_keeps ht _ hs⟩

theorem saveAll_keeps (hc : s.catalog.Sound) {recordType : String} :
    ∀ {records : List Record} {t t' : Transaction} {u : Unit}, s.catalog.Keeps t.tables →
      t.saveAll s recordType records = (.ok u, t') → s.catalog.Keeps t'.tables
  | [], t, t', u, ht, h => by
    cases h
    exact ht
  | r :: rest, t, t', u, ht, h => by
    rw [saveAll] at h
    rcases hs : t.save s recordType r with ⟨e | v, t₁⟩ <;> rw [hs] at h
    · cases h
    · exact saveAll_keeps hc (save_keeps hc ht hs) h

/-- Carrying out a request keeps the tables of the store and of the transaction sound. -/
theorem perform_keeps (hc : s.catalog.Sound) (hs : s.catalog.Keeps s.committed)
    (ht : s.catalog.Keeps t.tables) {r : Request} {a : Answer} {s' : Store}
    (h : t.perform s r = (a, t', s')) :
    s'.catalog = s.catalog ∧ s.catalog.Keeps s'.committed ∧ s.catalog.Keeps t'.tables := by
  cases r with
  | read q =>
    simp only [perform] at h
    split at h <;> cases h <;> exact ⟨rfl, hs, ht⟩
  | save recordType r =>
    simp only [perform] at h
    split at h <;> cases h
    · rename_i hsave
      exact ⟨rfl, hs, save_keeps hc ht hsave⟩
    · rename_i hsave
      rw [save_eq_error hsave]
      exact ⟨rfl, hs, ht⟩
  | delete recordType pk =>
    simp only [perform] at h
    split at h <;> cases h
    · rename_i hdelete
      exact ⟨rfl, hs, delete_keeps hc ht hdelete⟩
    · exact ⟨rfl, hs, ht⟩
  | commit =>
    have hclosed := (commit_closed s t).2.1
    simp only [perform] at h
    split at h <;> cases h <;> rename_i hcommit <;> rw [hcommit] at hclosed
    · obtain ⟨hcat, hcommitted⟩ := commit_keeps hs ht hcommit
      exact ⟨hcat, hcommitted, by rw [hclosed]; exact ht⟩
    · exact ⟨rfl, hs, by rw [hclosed]; exact ht⟩
  | cancel =>
    cases h
    exact ⟨rfl, hs, ht⟩

end Transaction

/-! ## Runs -/

namespace SharedStore

/-- Every table of a shared store is sound, committed or not. -/
structure Kept (c : Catalog) (y : SharedStore) : Prop where
  catalog : y.store.catalog = c
  committed : c.Keeps y.store.committed
  transactions : ∀ t ∈ y.transactions, c.Keeps t.tables

theorem Kept.perform {c : Catalog} (hc : c.Sound) {y y' : SharedStore} {op : Operation}
    {a : Answer} (h : Kept c y) (hop : y.perform op = some (a, y')) : Kept c y' := by
  obtain ⟨rfl, hs, hts⟩ := h
  cases op with
  | begin =>
    obtain ⟨-, rfl⟩ := begin_eq_some hop
    refine ⟨rfl, hs, fun t ht => ?_⟩
    rcases List.mem_append.1 ht with ht | ht
    · exact hts t ht
    · rw [List.mem_singleton.1 ht]
      exact hs
  | request i r =>
    obtain ⟨t, hi, -, rfl⟩ := request_eq_some hop
    obtain ⟨hcat, hcommitted, htables⟩ := Transaction.perform_keeps hc hs
      (hts t (List.mem_of_getElem? hi)) (r := r) rfl
    refine ⟨hcat, hcommitted, fun u hu => ?_⟩
    rcases List.mem_or_eq_of_mem_set hu with hu | rfl
    · exact hts u hu
    · exact htables
  | insert recordType records =>
    -- an insertion is a transaction of its own: its saves and its commit keep the tables
    obtain ⟨htransactions, ⟨-, hinsert⟩ | ⟨hstore, -⟩⟩ := insert_eq_some hop
    · unfold Store.insertAll at hinsert
      rcases hrun : y.store.begin.saveAll y.store recordType records with ⟨e | u, t⟩ <;>
        rw [hrun] at hinsert
      · cases hinsert
      · have hcommit : t.commit y.store = (.ok y'.store, (t.commit y.store).2) :=
          Prod.ext hinsert rfl
        obtain ⟨hcat, hcommitted⟩ := Transaction.commit_keeps hs
          (Transaction.saveAll_keeps hc (t := y.store.begin) hs hrun) hcommit
        exact ⟨hcat, hcommitted, htransactions ▸ hts⟩
    · exact ⟨by rw [hstore], by rw [hstore]; exact hs, htransactions ▸ hts⟩

theorem run_kept {c : Catalog} (hc : c.Sound) {start : Store} (hcat : start.catalog = c)
    (hempty : start.committed = []) : ∀ {ops : List Operation} {history : History}
    {y : SharedStore}, run start ops = some (history, y) → Kept c y
  | [], history, y, h => by
    simp only [run, Option.some.injEq, Prod.mk.injEq] at h
    rw [← h.2]
    exact ⟨hcat, by rw [hempty]; exact .nil c, by simp⟩
  | op :: earlier, history, y, h => by
    obtain ⟨history₀, y₀, a, hrun, hop, -⟩ := run_cons_eq_some h
    exact (run_kept hc hcat hempty hrun).perform hc hop

end SharedStore

/-- A state that a store over a catalog can come to by operations in any order. -/
def Store.Reachable (c : Catalog) (s : Store) : Prop :=
  ∃ heights ops history transactions,
    SharedStore.run { catalog := c, heights } ops = some (history, ⟨s, transactions⟩)

/-- **The committed tables of a reachable state are sound.** -/
theorem Store.Reachable.keeps {c : Catalog} (hc : c.Sound) {s : Store} (h : s.Reachable c) :
    s.catalog = c ∧ c.Keeps s.committed := by
  obtain ⟨heights, ops, history, transactions, hrun⟩ := h
  have hkept := SharedStore.run_kept hc rfl rfl hrun
  exact ⟨hkept.catalog, hkept.committed⟩

theorem Store.reachable_empty (c : Catalog) : Store.Reachable c { catalog := c } :=
  ⟨fun _ => .ruler, [], [], [], rfl⟩

/-- What an empty store comes to when records are inserted. -/
theorem Store.reachable_of_insertAll {c : Catalog} {s : Store} {recordType : String}
    {records : List Record} (h : Store.insertAll { catalog := c } recordType records = .ok s) :
    s.Reachable c := by
  refine ⟨fun _ => .ruler, [.insert recordType records],
    [(.insert recordType records, .done)], [], ?_⟩
  rw [SharedStore.run, SharedStore.run]
  simp only [SharedStore.perform]
  rw [show Store.insertAll { catalog := c } recordType records = .ok s from h]
  rfl

end RecordLayer
