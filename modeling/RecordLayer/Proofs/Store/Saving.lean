import RecordLayer.Proofs.Store.Interleaving

/-!
# What a save leaves of a transaction

A save takes up its table, and makes one if the transaction has none, before any unique index is
asked whether it takes the record. So a refusal comes when the transaction may have been changed
already. It has not been: a table just made has no entry that could stand against a record, and a
table that was there is only looked at. A save is then a function of the table it is about, and a
save that fails is no change of the transaction at all.
-/

namespace RecordLayer

/-! ## Tables just made -/

namespace Table

/-- A table just made has no entries. -/
theorem entries_empty {indexes : List Index} {heights : String → RankedSet.Heights} {i : Index}
    {d : IndexData} (h : (Table.empty indexes heights).data? i = some d) : d.entries = [] := by
  rcases SortedMap.mem_foldl_put (SortedMap.mem_of_lookup? h) with hnone | ⟨j, -, heq⟩
  · cases hnone
  · obtain rfl : d = emptyData heights j := (Prod.mk.inj heq).2
    rfl

/-- **A table just made refuses no record.** -/
theorem violation?_empty (indexes : List Index) (heights : String → RankedSet.Heights)
    (t : RecordType) (checked : List Index) (r : Record) :
    (Table.empty indexes heights).violation? t checked r = none := by
  refine List.find?_eq_none.2 fun i _ => ?_
  dsimp only
  cases hd : (Table.empty indexes heights).data? i with
  | none => exact Bool.false_ne_true
  | some d =>
    dsimp only
    rw [entries_empty hd]
    exact Bool.false_ne_true

end Table

/-! ## A save as a function of one table -/

/-- What a save makes of a table, or why it is refused. -/
def Store.saveInto (s : Store) (recordType : String) (r : Record) (table : Option Table) :
    Except StoreError Table :=
  match s.catalog.recordType? recordType with
  | none => .error (.unknownRecordType recordType)
  | some t =>
    match t.validate r with
    | .error e => .error (.schema e)
    | .ok _ =>
      let indexes := s.catalog.plannableIndexes recordType
      let table := table.getD (s.newTable recordType)
      match table.violation? t indexes r with
      | some i => .error (.uniqueViolation i.name (Value.renderTaggedList (i.keyOf t r)))
      | none => .ok ((table.unlink t indexes (t.keyOf r)).link t indexes r)

/-- A save that is not refused: the record is valid, its table takes it, and it is linked in place
of the one with its primary key. -/
theorem Store.saveInto_eq_ok {s : Store} {recordType : String} {r : Record} {table : Option Table}
    {saved : Table} (h : s.saveInto recordType r table = .ok saved) :
    ∃ t, s.catalog.recordType? recordType = some t ∧ t.validate r = .ok () ∧
      (table.getD (s.newTable recordType)).violation? t (s.catalog.plannableIndexes recordType) r =
        none ∧
      saved = ((table.getD (s.newTable recordType)).unlink t
        (s.catalog.plannableIndexes recordType) (t.keyOf r)).link t
          (s.catalog.plannableIndexes recordType) r := by
  unfold saveInto at h
  cases hc : s.catalog.recordType? recordType with
  | none => simp [hc] at h
  | some t =>
    simp only [hc] at h
    cases hv : t.validate r with
    | error e => simp [hv] at h
    | ok u =>
      simp only [hv] at h
      split at h
      · cases h
      · next hfree => exact ⟨t, rfl, hv, hfree, (Except.ok.inj h).symm⟩

namespace Transaction

/-- The transaction after a write that made `table` of a table. -/
def wrote (t : Transaction) (name : String) (table : Table) : Transaction :=
  { t with tables := t.tables.put name table, written := addName name t.written }

theorem save_closed {t : Transaction} (ho : t.isOpen = false) (s : Store) (recordType : String)
    (r : Record) : t.save s recordType r = (.error .transactionClosed, t) := by
  rw [save, ho]
  rfl

/-- **A save writes its table, or leaves the transaction as it was.** -/
theorem save_eq {t : Transaction} (ho : t.isOpen = true) (s : Store) (recordType : String)
    (r : Record) :
    t.save s recordType r =
      match s.saveInto recordType r (t.tables.lookup? recordType) with
      | .ok table => (.ok (), t.wrote recordType table)
      | .error e => (.error e, t) := by
  rw [save, ho, if_neg (by simp), Store.saveInto]
  cases s.catalog.recordType? recordType with
  | none => rfl
  | some type =>
    dsimp only
    cases type.validate r with
    | error e => rfl
    | ok u =>
      unfold openTable
      dsimp only
      cases hl : t.tables.lookup? recordType with
      | some table =>
        dsimp only [Option.getD_some]
        cases table.violation? type (s.catalog.plannableIndexes recordType) r <;> rfl
      | none =>
        dsimp only [Option.getD_none]
        -- the table is there now, and the one that the save makes takes its place
        rw [Store.newTable, Table.violation?_empty]
        dsimp only [wrote]
        rw [SortedMap.put_put]

theorem save_eq_error {s : Store} {t t' : Transaction} {recordType : String} {r : Record}
    {e : StoreError} (h : t.save s recordType r = (.error e, t')) : t' = t := by
  cases ho : t.isOpen with
  | false =>
    rw [save_closed ho] at h
    exact (Prod.mk.inj h).2.symm
  | true =>
    rw [save_eq ho] at h
    split at h
    · cases h
    · exact (Prod.mk.inj h).2.symm

theorem save_eq_ok {s : Store} {t t' : Transaction} {recordType : String} {r : Record} {u : Unit}
    (h : t.save s recordType r = (.ok u, t')) :
    t.isOpen = true ∧ ∃ table,
      s.saveInto recordType r (t.tables.lookup? recordType) = .ok table ∧
        t' = t.wrote recordType table := by
  cases ho : t.isOpen with
  | false =>
    rw [save_closed ho] at h
    cases h
  | true =>
    rw [save_eq ho] at h
    split at h
    · next table htable => exact ⟨rfl, table, htable, (Prod.mk.inj h).2.symm⟩
    · cases h

end Transaction

end RecordLayer
