import RecordLayer.Proofs.SortedMap
import RecordLayer.Store.Transaction

/-!
# Interleaved transactions

One store, any number of transactions begun on it, and the order in which their requests happen to
arrive. A *run* is a list of operations, the latest first; it gives the state that they lead to and
a history, which pairs every operation with the answer that it got.

What a transaction wrote is read off the history alone: a save that was answered `done` and a
deletion that found its record are *writes*, everything else left the tables as they were.
`Write.apply` says what a write means for tables without any transaction around it, and `replay`
applies writes to an empty store one after the other.
-/

namespace RecordLayer

/-! ## Requests -/

/-- A question to a store. -/
inductive Question
  | scanRecords (recordType : String) (consistency : Consistency)
  | scanIndex (index : Index) (range : KeyRange) (consistency : Consistency)
  | load (recordType : String) (primaryKey : Value) (consistency : Consistency)
  | rankOf (index : Index) (value : Value)
  | selectRank (index : Index) (rank : UInt64)
  | rankCount (index : Index)

/-- What a caller asks of one transaction. -/
inductive Request
  | read (q : Question)
  | save (recordType : String) (r : Record)
  | delete (recordType : String) (primaryKey : Value)
  | commit
  | cancel

deriving instance DecidableEq for StoreView.IndexEntry

/-- What a request is answered. -/
inductive Answer
  | done
  | deleted (found : Bool)
  | records (rs : List Record)
  | entries (es : List StoreView.IndexEntry)
  | record (r : Option Record)
  | rank (n : UInt64)
  | value (v : Option Value)
  | failed (e : StoreError)
deriving DecidableEq

namespace Question

/-- Answers a question from a view. -/
def run (v : StoreView) : Question → Reading Answer
  | scanRecords recordType consistency => return .records (← v.records recordType consistency)
  | scanIndex index range consistency => return .entries (← v.entries index range consistency)
  | load recordType primaryKey consistency =>
    return .record (← v.loadRecord recordType primaryKey consistency)
  | rankOf index value => return .rank (← v.rankOf index value)
  | selectRank index rank => return .value (← v.selectRank index rank)
  | rankCount index => return .rank (← v.rankCount index)

/-- The record type that a question is about. -/
def recordType : Question → String
  | scanRecords recordType _ | load recordType _ _ => recordType
  | scanIndex index _ _ | rankOf index _ | selectRank index _ | rankCount index => index.recordType

end Question

namespace Request

/-- The record type that a request is about. -/
def recordType? : Request → Option String
  | read q => some q.recordType
  | save recordType _ | delete recordType _ => some recordType
  | commit | cancel => none

end Request

namespace Transaction

/-- Carries out a request. -/
def perform (s : Store) (t : Transaction) : Request → Answer × Transaction × Store
  | .read q =>
    match (q.run (t.view s.catalog)).run with
    | (.ok a, trace) => (a, t.noteReads trace, s)
    | (.error e, trace) => (.failed e, t.noteReads trace, s)
  | .save recordType r =>
    match t.save s recordType r with
    | (.ok _, t) => (.done, t, s)
    | (.error e, t) => (.failed e, t, s)
  | .delete recordType primaryKey =>
    match t.delete s recordType primaryKey with
    | .ok (found, t) => (.deleted found, t, s)
    | .error e => (.failed e, t, s)
  | .commit =>
    match t.commit s with
    | (.ok s, t) => (.done, t, s)
    | (.error e, t) => (.failed e, t, s)
  | .cancel => (.done, t.cancel, s)

/-- Carries out requests with nothing in between. -/
def performAll (s : Store) (t : Transaction) : List Request → List Answer × Transaction × Store
  | [] => ([], t, s)
  | r :: rest =>
    let (a, t, s) := t.perform s r
    let (as, t, s) := performAll s t rest
    (a :: as, t, s)

end Transaction

/-! ## Runs -/

/-- A store with the transactions begun on it, in the order of their beginning. -/
structure SharedStore where
  store : Store
  transactions : List Transaction := []

/-- What can happen next. -/
inductive Operation
  | begin
  | request (number : Nat) (r : Request)
  /-- Records inserted in a transaction of their own. -/
  | insert (recordType : String) (records : List Record)

/-- Operations with their answers, the latest first. -/
abbrev History := List (Operation × Answer)

namespace SharedStore

/-- Carries out an operation; there is no request to a transaction that was not begun. -/
def perform (y : SharedStore) : Operation → Option (Answer × SharedStore)
  | .begin => some (.done, { y with transactions := y.transactions ++ [y.store.begin] })
  | .request i r =>
    match y.transactions[i]? with
    | none => none
    | some t =>
      let (a, t, store) := t.perform y.store r
      some (a, { store, transactions := y.transactions.set i t })
  | .insert recordType records =>
    match y.store.insertAll recordType records with
    | .ok store => some (.done, { y with store })
    | .error e => some (.failed e, y)

/-- The history of operations, the latest first, and the state that they lead to. -/
def run (start : Store) : List Operation → Option (History × SharedStore)
  | [] => some ([], { store := start })
  | op :: earlier =>
    match run start earlier with
    | none => none
    | some (history, y) => (y.perform op).map fun (a, y) => ((op, a) :: history, y)

/-! What an operation found, and what it left. -/

variable {y y' : SharedStore} {a : Answer}

theorem begin_eq_some (h : y.perform .begin = some (a, y')) :
    a = .done ∧ y' = { y with transactions := y.transactions ++ [y.store.begin] } := by
  obtain ⟨ha, hy⟩ := Prod.mk.inj (Option.some.inj h)
  exact ⟨ha.symm, hy.symm⟩

theorem request_eq_some {i : Nat} {r : Request} (h : y.perform (.request i r) = some (a, y')) :
    ∃ t, y.transactions[i]? = some t ∧ a = (t.perform y.store r).1 ∧
      y' = ⟨(t.perform y.store r).2.2, y.transactions.set i (t.perform y.store r).2.1⟩ := by
  unfold perform at h
  dsimp only at h
  cases ht : y.transactions[i]? with
  | none => simp [ht] at h
  | some t =>
    simp only [ht, Option.some.injEq, Prod.mk.injEq] at h
    exact ⟨t, rfl, h.1.symm, h.2.symm⟩

theorem insert_eq_some {recordType : String} {records : List Record}
    (h : y.perform (.insert recordType records) = some (a, y')) :
    y'.transactions = y.transactions ∧
      ((a = .done ∧ y.store.insertAll recordType records = .ok y'.store) ∨
        y'.store = y.store ∧ ∃ e, a = .failed e ∧
          y.store.insertAll recordType records = .error e) := by
  unfold perform at h
  dsimp only at h
  cases hi : y.store.insertAll recordType records with
  | ok store =>
    simp only [hi, Option.some.injEq, Prod.mk.injEq] at h
    obtain ⟨rfl, rfl⟩ := h
    exact ⟨rfl, Or.inl ⟨rfl, rfl⟩⟩
  | error e =>
    simp only [hi, Option.some.injEq, Prod.mk.injEq] at h
    obtain ⟨rfl, rfl⟩ := h
    exact ⟨rfl, Or.inr ⟨rfl, e, rfl, rfl⟩⟩

/-- The last operation of a run. -/
theorem run_cons_eq_some {start : Store} {op : Operation} {earlier : List Operation}
    {history : History} (h : run start (op :: earlier) = some (history, y)) :
    ∃ history₀ y₀ a, run start earlier = some (history₀, y₀) ∧ y₀.perform op = some (a, y) ∧
      history = (op, a) :: history₀ := by
  unfold run at h
  cases hr : run start earlier with
  | none => simp [hr] at h
  | some p =>
    obtain ⟨history₀, y₀⟩ := p
    simp only [hr, Option.map_eq_some_iff, Prod.mk.injEq] at h
    obtain ⟨⟨a, y'⟩, hp, rfl, rfl⟩ := h
    exact ⟨history₀, y₀, a, rfl, hp, rfl⟩

end SharedStore

/-! ## Histories -/

/-- The requests to a transaction with their answers, the earliest first. -/
def exchanges (i : Nat) : History → List (Request × Answer)
  | [] => []
  | (.request j r, a) :: history =>
    if j = i then exchanges i history ++ [(r, a)] else exchanges i history
  | _ :: history => exchanges i history

/-- A change of one table. -/
inductive Write
  | save (recordType : String) (r : Record)
  | delete (recordType : String) (primaryKey : Value)

/-- The change that an answered request made. -/
def Request.write? : Request → Answer → Option Write
  | save recordType r, .done => some (.save recordType r)
  | delete recordType primaryKey, .deleted true => some (.delete recordType primaryKey)
  | _, _ => none

/-- The changes that answered requests made, in their order. -/
def writesOf (exchanged : List (Request × Answer)) : List Write :=
  exchanged.filterMap fun (r, a) => r.write? a

/-- The changes of each commit that succeeded, in the order of the commits. -/
def committedWrites : History → List (List Write)
  | [] => []
  | (.request i .commit, .done) :: history =>
    committedWrites history ++ [writesOf (exchanges i history)]
  | (.insert recordType records, .done) :: history =>
    committedWrites history ++ [records.map (.save recordType)]
  | _ :: history => committedWrites history

namespace Write

/-- The record type whose table changes. -/
def recordType : Write → String
  | save recordType _ | delete recordType _ => recordType

/-- What a change makes of its table; the first save creates the table. -/
def applyTo (s : Store) (table : Option Table) : Write → Option Table
  | save recordType r =>
    match s.catalog.recordType? recordType with
    | none => table
    | some t =>
      let indexes := s.catalog.plannableIndexes recordType
      some (((table.getD (s.newTable recordType)).unlink t indexes (t.keyOf r)).link t indexes r)
  | delete recordType primaryKey =>
    match s.catalog.recordType? recordType with
    | none => table
    | some t => table.map (·.unlink t (s.catalog.plannableIndexes recordType) primaryKey)

/-- What a change makes of the tables. -/
def apply (s : Store) (tables : Tables) (w : Write) : Tables :=
  match w.applyTo s (tables.lookup? w.recordType) with
  | none => tables
  | some table => tables.put w.recordType table

end Write

/-- The tables after changes to an empty store. -/
def replay (s : Store) (writes : List Write) : Tables := writes.foldl (Write.apply s) []

end RecordLayer
