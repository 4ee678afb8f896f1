import RecordLayer.Proofs.Store.Replay
import RecordLayer.Proofs.Store.Scanning
import RecordLayer.Store.Reading

/-!
# When a transaction could have run alone

A transaction that commits has found every table of its conflict set as it was at its beginning. So
it may be moved to the instant before its commit: what it asked about those tables is answered alike
there, and it publishes the same tables.

Three kinds of requests look at a table without putting it into the conflict set: questions for
ranks, deletions that find nothing, and saves that a unique index refuses. If such a table was
committed to in the meantime, their answers may be others. `commit_alone_iff` says that nothing
else can go wrong.
-/

namespace RecordLayer

open Transaction (versionIn addName)

/-! ## What reads join -/

namespace Reading

/-- A reading only adds to the calls of a trace. -/
def KeepsCalls {α : Type} (x : Reading α) : Prop :=
  ∀ before call, call ∈ before.calls → call ∈ ((ExceptT.run x).run before).2.calls

theorem keepsCalls_pure {α : Type} (a : α) : KeepsCalls (pure a) := fun _ _ h => h

theorem keepsCalls_throw {α : Type} (e : StoreError) : KeepsCalls (throw e : Reading α) :=
  fun _ _ h => h

theorem keepsCalls_bind {α β : Type} {x : Reading α} {f : α → Reading β} (hx : x.KeepsCalls)
    (hf : ∀ a, (f a).KeepsCalls) : KeepsCalls (x >>= f) := by
  intro before call h
  rw [run_bind]
  have hmid := hx before call h
  cases hrun : (ExceptT.run x).run before with
  | mk outcome mid =>
    rw [hrun] at hmid
    cases outcome with
    | ok a => exact hf a mid call hmid
    | error e => exact hmid

theorem keepsCalls_mapM {α β : Type} {f : α → Reading β} (hf : ∀ a, (f a).KeepsCalls) :
    ∀ l : List α, KeepsCalls (l.mapM f)
  | [] => by
    rw [List.mapM_nil]
    exact keepsCalls_pure _
  | a :: rest => by
    rw [List.mapM_cons]
    exact keepsCalls_bind (hf a) fun b => keepsCalls_bind (keepsCalls_mapM hf rest) fun bs =>
      keepsCalls_pure _

/-- A reading that notes a call, whatever comes of it. -/
def Notes {α : Type} (x : Reading α) (call : ReadCall) : Prop :=
  ∀ before, call ∈ ((ExceptT.run x).run before).2.calls

theorem notes_bind {β : Type} (call : ReadCall) {f : Unit → Reading β}
    (hf : ∀ u, (f u).KeepsCalls) : Notes (StoreView.note call >>= f) call := by
  intro before
  rw [run_bind]
  exact hf () _ call List.mem_cons_self

/-- What is counted before does not matter. -/
theorem notes_modify {β : Type} {call : ReadCall} (g : ReadTrace → ReadTrace)
    {f : Unit → Reading β} (hf : (f ()).Notes call) : Notes (modify g >>= f) call :=
  fun before => hf (g before)

end Reading

namespace StoreView

open Reading

theorem checkFault_none {v : StoreView} (h : v.fault = fun _ _ => none) (p : FaultPoint) :
    v.checkFault p = pure () := by
  unfold checkFault
  rw [h]
  rfl

theorem keepsCalls_checkFault (v : StoreView) (p : FaultPoint) : (v.checkFault p).KeepsCalls := by
  unfold checkFault
  refine keepsCalls_bind (fun _ _ h => h) fun trace => ?_
  cases v.fault p trace with
  | none => exact keepsCalls_pure _
  | some e => exact keepsCalls_throw e

theorem keepsCalls_yieldRow {α : Type} (v : StoreView) (row : α) : (v.yieldRow row).KeepsCalls := by
  unfold yieldRow
  exact keepsCalls_bind (fun _ _ h => h) fun _ => keepsCalls_bind (keepsCalls_checkFault v _)
    fun _ => keepsCalls_pure _

theorem keepsCalls_endRows (v : StoreView) : v.endRows.KeepsCalls := by
  unfold endRows
  exact keepsCalls_bind (fun _ _ h => h) fun _ => keepsCalls_checkFault v _

theorem keepsCalls_yieldEntry (v : StoreView) (row : EntryRow) :
    (v.yieldEntry row).KeepsCalls := by
  unfold yieldEntry
  refine keepsCalls_bind (keepsCalls_yieldRow v row) fun row => ?_
  cases row with
  | entry e => exact keepsCalls_pure e
  | dangling index primaryKey => exact keepsCalls_throw _

theorem keepsCalls_recordType (v : StoreView) (name : String) :
    (v.recordType name).KeepsCalls := by
  unfold recordType
  cases v.catalog.recordType? name with
  | none => exact keepsCalls_throw _
  | some t => exact keepsCalls_pure t

theorem keepsCalls_checkIndex (v : StoreView) (index : Index) :
    (v.checkIndex index).KeepsCalls := by
  unfold checkIndex
  refine keepsCalls_bind (keepsCalls_recordType v _) fun t => ?_
  split
  · exact keepsCalls_pure t
  · exact keepsCalls_throw _

theorem notes_records {v : StoreView} (ho : v.isOpen = true) (recordType : String)
    (consistency : Consistency) :
    (v.records recordType consistency).Notes (.scanRecords recordType consistency) := by
  unfold records scanRecords ensureOpen
  rw [if_pos ho]
  simp only [pure_bind, bind_assoc]
  exact notes_modify _ (notes_bind _ fun _ => keepsCalls_bind (keepsCalls_recordType v _) fun _ =>
    keepsCalls_bind (keepsCalls_mapM (keepsCalls_yieldRow v) _) fun _ =>
      keepsCalls_bind (keepsCalls_endRows v) fun _ => keepsCalls_pure _)

theorem notes_entries {v : StoreView} (ho : v.isOpen = true) (index : Index) (range : KeyRange)
    (consistency : Consistency) :
    (v.entries index range consistency).Notes
      (.scanIndex index.name index.recordType consistency) := by
  unfold entries scanIndex ensureOpen
  rw [if_pos ho]
  simp only [pure_bind, bind_assoc]
  exact notes_bind _ fun _ => keepsCalls_bind (keepsCalls_checkIndex v _) fun _ =>
    keepsCalls_bind (keepsCalls_mapM (keepsCalls_yieldEntry v) _) fun _ =>
      keepsCalls_bind (keepsCalls_endRows v) fun _ => keepsCalls_pure _

theorem notes_loadRecord {v : StoreView} (ho : v.isOpen = true)
    (hf : v.fault = fun _ _ => none) (recordType : String) (primaryKey : Value)
    (consistency : Consistency) :
    (v.loadRecord recordType primaryKey consistency).Notes
      (.load recordType primaryKey consistency) := by
  unfold loadRecord ensureOpen
  rw [if_pos ho, checkFault_none hf]
  simp only [pure_bind]
  refine notes_bind _ fun _ => keepsCalls_bind (keepsCalls_recordType v _) fun _ => ?_
  split <;> exact keepsCalls_pure _

end StoreView

namespace Question

/-- Whether a question for records or entries asks for serializability. -/
def isSerializable : Question → Bool
  | scanRecords _ consistency | scanIndex _ _ consistency | load _ _ consistency =>
    consistency = .serializable
  | rankOf .. | selectRank .. | rankCount _ => true

/-- Whether a question is about ranks. -/
def isRank : Question → Bool
  | rankOf .. | selectRank .. | rankCount _ => true
  | scanRecords .. | scanIndex .. | load .. => false

/-- **A serializable read of records or entries joins its table.** -/
theorem exists_call_dependsOn {v : StoreView} (ho : v.isOpen = true)
    (hf : v.fault = fun _ _ => none) {q : Question} (hs : q.isSerializable = true)
    (hr : q.isRank = false) :
    ∃ call ∈ ((q.run v).run).2.calls, call.dependsOn? = some q.recordType := by
  -- what is done with a result adds no calls, so the call of the reading is still there
  have key : ∀ {α : Type} {x : Reading α} {call : ReadCall} (f : α → Answer),
      x.Notes call → call ∈ ((x >>= fun a => pure (f a)).run).2.calls := by
    intro α x call f hx
    have hcall := hx {}
    unfold Reading.run
    rw [Reading.run_bind]
    cases hrun : (ExceptT.run x).run {} with
    | mk outcome mid =>
      rw [hrun] at hcall
      cases outcome <;> exact hcall
  cases q with
  | scanRecords recordType consistency =>
    obtain rfl : consistency = .serializable := by simpa [isSerializable] using hs
    exact ⟨_, key .records (StoreView.notes_records ho _ _), rfl⟩
  | scanIndex index range consistency =>
    obtain rfl : consistency = .serializable := by simpa [isSerializable] using hs
    exact ⟨_, key .entries (StoreView.notes_entries ho _ _ _), rfl⟩
  | load recordType primaryKey consistency =>
    obtain rfl : consistency = .serializable := by simpa [isSerializable] using hs
    exact ⟨_, key .record (StoreView.notes_loadRecord ho hf _ _ _), rfl⟩
  | _ => simp [isRank] at hr

/-- **What a question is answered depends on one table.** -/
theorem run_congr {v v' : StoreView} (hc : v.catalog = v'.catalog) (ho : v.isOpen = v'.isOpen)
    (hf : v.fault = v'.fault) (hh : v.hidden = v'.hidden) (q : Question)
    (ht : v.table? q.recordType = v'.table? q.recordType) : q.run v = q.run v' := by
  -- every part that a reading is made of asks for the fault, the schema or the one table
  have hrow : ∀ {α : Type} (row : α), v.yieldRow row = v'.yieldRow row := by
    intro α row
    simp only [StoreView.yieldRow, StoreView.checkFault, hf]
  have hend : v.endRows = v'.endRows := by
    simp only [StoreView.endRows, StoreView.checkFault, hf]
  have htype : ∀ name, v.recordType name = v'.recordType name := by
    intro name
    simp only [StoreView.recordType, hc]
  have hindex : ∀ index, v.checkIndex index = v'.checkIndex index := by
    intro index
    simp only [StoreView.checkIndex, htype, hc]
  cases q with
  | scanRecords recordType consistency =>
    have ht : v.table? recordType = v'.table? recordType := ht
    have hrows : v.yieldRow (α := Record) = v'.yieldRow := funext fun row => hrow row
    simp only [run, StoreView.records, StoreView.scanRecords, StoreView.ensureOpen,
      StoreView.recordsOf, ho, htype, ht, hrows, hend]
  | scanIndex index range consistency =>
    have ht : v.table? index.recordType = v'.table? index.recordType := ht
    have hrows : v.yieldEntry = v'.yieldEntry := by
      funext row
      simp only [StoreView.yieldEntry, hrow]
    simp only [run, StoreView.entries, StoreView.scanIndex, StoreView.ensureOpen, ho, hindex,
      StoreView.entriesOf_congr ht, hrows, hend]
  | load recordType primaryKey consistency =>
    have ht : v.table? recordType = v'.table? recordType := ht
    simp only [run, StoreView.loadRecord, StoreView.checkFault, StoreView.ensureOpen, hf, ho, htype,
      hh, ht]
  | _ =>
    simp only [recordType] at ht
    simp only [run, StoreView.rankOf, StoreView.selectRank, StoreView.rankCount, StoreView.ranking,
      StoreView.checkFault, StoreView.ensureOpen, hf, ho, hindex, ht]

end Question

/-- The table that an answered request depends on without having put it into the conflict set: that
of a question for ranks, of a save that a unique index refused, of a deletion that found nothing. -/
def Request.unguarded? : Request → Answer → Option String
  | .read q, _ => if q.isRank then some q.recordType else none
  | .save recordType _, .failed (.uniqueViolation _ _) => some recordType
  | .delete recordType _, .deleted false => some recordType
  | _, _ => none

/-- Whether a request, if it reads records or entries, asks for serializability. -/
def Request.isSerializable : Request → Bool
  | .read q => q.isSerializable
  | _ => true

/-! ## Two transactions that agree on some tables -/

namespace Transaction

/-- Two transactions that wrote the same tables and cannot be told apart by what they hold of the
tables in `P`. -/
structure Agree (P : String → Prop) (t u : Transaction) : Prop where
  isOpen : u.isOpen = t.isOpen
  written : u.written = t.written
  tables : ∀ name, P name → t.tables.lookup? name = u.tables.lookup? name

theorem mem_noteReads {t : Transaction} {trace : ReadTrace} {name : String} :
    name ∈ (t.noteReads trace).read ↔
      (∃ call ∈ trace.calls, call.dependsOn? = some name) ∨ name ∈ t.read := by
  have key : ∀ names : List String, name ∈ names.foldr addName t.read ↔
      name ∈ names ∨ name ∈ t.read := by
    intro names
    induction names with
    | nil => simp
    | cons n names ih => rw [List.foldr_cons, mem_addName, ih, List.mem_cons, or_assoc]
  rw [noteReads, key, List.mem_filterMap]

end Transaction

/-! ## Requests as functions of one table -/

/-- The answer to a read; a failed one is answered with its error. -/
def Answer.ofOutcome : Except StoreError Answer → Answer
  | .ok a => a
  | .error e => .failed e

namespace Store

/-- What a deletion makes of a table, if it finds the record. -/
def deleteFrom (s : Store) (recordType : String) (primaryKey : Value) (table : Option Table) :
    Except StoreError (Option Table) :=
  match s.catalog.recordType? recordType with
  | none => .error (.unknownRecordType recordType)
  | some t =>
    .ok ((table.filter (·.records.has primaryKey)).map
      (·.unlink t (s.catalog.plannableIndexes recordType) primaryKey))

/-- Only a unique index refuses a save because of what the table holds. -/
theorem saveInto_eq_error {s : Store} {recordType : String} {r : Record} {table : Option Table}
    {e : StoreError} (h : s.saveInto recordType r table = .error e) :
    (∃ index key, e = .uniqueViolation index key) ∨
      ∀ table', s.saveInto recordType r table' = .error e := by
  unfold saveInto at h ⊢
  cases hc : s.catalog.recordType? recordType with
  | none =>
    simp only [hc] at h ⊢
    exact Or.inr fun _ => h
  | some t =>
    simp only [hc] at h ⊢
    cases hv : t.validate r with
    | error e' =>
      simp only [hv] at h ⊢
      exact Or.inr fun _ => h
    | ok u =>
      simp only [hv] at h
      split at h <;> cases h
      exact Or.inl ⟨_, _, rfl⟩

theorem deleteFrom_eq_error {s : Store} {recordType : String} {primaryKey : Value}
    {table : Option Table} {e : StoreError}
    (h : s.deleteFrom recordType primaryKey table = .error e) :
    ∀ table', s.deleteFrom recordType primaryKey table' = .error e := by
  unfold deleteFrom at h ⊢
  cases hc : s.catalog.recordType? recordType with
  | none =>
    simp only [hc] at h ⊢
    exact fun _ => h
  | some t => simp [hc] at h

end Store

namespace Transaction

theorem perform_read (s : Store) (t : Transaction) (q : Question) :
    t.perform s (.read q) =
      (.ofOutcome ((q.run (t.view s.catalog)).run).1,
        t.noteReads ((q.run (t.view s.catalog)).run).2, s) := by
  simp only [perform]
  cases (q.run (t.view s.catalog)).run with
  | mk outcome trace => cases outcome <;> rfl

theorem perform_save {s : Store} {t : Transaction} (ho : t.isOpen = true) (recordType : String)
    (r : Record) :
    t.perform s (.save recordType r) =
      match s.saveInto recordType r (t.tables.lookup? recordType) with
      | .ok table => (.done, t.wrote recordType table, s)
      | .error e => (.failed e, t, s) := by
  rw [perform, save_eq ho]
  cases s.saveInto recordType r (t.tables.lookup? recordType) <;> rfl

theorem perform_delete {s : Store} {t : Transaction} (ho : t.isOpen = true)
    (recordType : String) (primaryKey : Value) :
    t.perform s (.delete recordType primaryKey) =
      match s.deleteFrom recordType primaryKey (t.tables.lookup? recordType) with
      | .ok (some table) => (.deleted true, t.wrote recordType table, s)
      | .ok none => (.deleted false, t, s)
      | .error e => (.failed e, t, s) := by
  obtain ⟨tables, beginVersions, written, read, isOpen⟩ := t
  obtain rfl : isOpen = true := ho
  unfold perform delete Store.deleteFrom
  simp only [Bool.not_true, Bool.false_eq_true, if_false]
  cases s.catalog.recordType? recordType with
  | none => rfl
  | some type =>
    cases tables.lookup? recordType with
    | none => rfl
    | some table =>
      simp only [Option.filter_some]
      cases table.records.has primaryKey <;> rfl

theorem Agree.wrote {P : String → Prop} {t u : Transaction} (h : Agree P t u) (name : String)
    (table : Table) : Agree P (t.wrote name table) (u.wrote name table) where
  isOpen := h.isOpen
  written := by simp only [Transaction.wrote, h.written]
  tables name' hP := by
    simp only [Transaction.wrote]
    rw [SortedMap.lookup?_put, SortedMap.lookup?_put, h.tables name' hP]

/-! ## One request asked twice -/

variable {P : String → Prop} {s : Store} {t t' u : Transaction}

theorem Agree.read (h : Agree P t u) (ho : t.isOpen = true) {q : Question} {a : Answer}
    (hrun : t.perform s (.read q) = (a, t', s)) (hq : q.isSerializable = true)
    (hP : ∀ name ∈ t'.read, P name)
    (hrank : q.isRank = true → ¬ P q.recordType → (u.perform s (.read q)).1 = a) :
    ∃ u', u.perform s (.read q) = (a, u', s) ∧ Agree P t' u' := by
  have hnoted : ∀ trace trace', Agree P (t.noteReads trace) (u.noteReads trace') :=
    fun _ _ => ⟨h.isOpen, h.written, h.tables⟩
  rw [perform_read] at hrun hrank ⊢
  obtain ⟨rfl, rfl, -⟩ := by simpa only [Prod.mk.injEq] using hrun
  suffices hsame : Answer.ofOutcome ((q.run (u.view s.catalog)).run).1 =
      Answer.ofOutcome ((q.run (t.view s.catalog)).run).1 by
    exact ⟨_, by rw [hsame], hnoted _ _⟩
  by_cases hname : P q.recordType
  · have hview : q.run (t.view s.catalog) = q.run (u.view s.catalog) := by
      apply Question.run_congr
      · rfl
      · exact h.isOpen.symm
      · rfl
      · rfl
      · exact h.tables _ hname
    rw [hview]
  · cases hr : q.isRank with
    | true => exact hrank hr hname
    | false =>
      have hv : (t.view s.catalog).isOpen = true := ho
      obtain ⟨call, hcall, hdep⟩ := Question.exists_call_dependsOn hv rfl hq hr
      exact absurd (hP _ (mem_noteReads.mpr (Or.inl ⟨call, hcall, hdep⟩))) hname

theorem Agree.save (h : Agree P t u) (ho : t.isOpen = true) {recordType : String} {r : Record}
    {a : Answer} (hrun : t.perform s (.save recordType r) = (a, t', s))
    (hP : ∀ name ∈ t'.written, P name)
    (hrefused : ∀ index key, a = .failed (.uniqueViolation index key) → ¬ P recordType →
      (u.perform s (.save recordType r)).1 = a) :
    ∃ u', u.perform s (.save recordType r) = (a, u', s) ∧ Agree P t' u' := by
  rw [perform_save ho] at hrun
  rw [perform_save (h.isOpen.trans ho)] at hrefused ⊢
  cases hsave : s.saveInto recordType r (t.tables.lookup? recordType) with
  | ok table =>
    rw [hsave] at hrun
    cases hrun
    have hname : P recordType := hP _ (mem_addName.mpr (Or.inl rfl))
    rw [← h.tables _ hname, hsave]
    exact ⟨_, rfl, h.wrote _ _⟩
  | error e =>
    rw [hsave] at hrun
    cases hrun
    suffices hsame : s.saveInto recordType r (u.tables.lookup? recordType) = .error e by
      rw [hsame]
      exact ⟨u, rfl, h⟩
    by_cases hname : P recordType
    · rw [← h.tables _ hname, hsave]
    · -- a violation of uniqueness was refused alike by assumption, and any other refusal does not
      -- look at the table
      rcases Store.saveInto_eq_error hsave with ⟨index, key, rfl⟩ | hall
      · have ha := hrefused index key rfl hname
        split at ha <;> cases ha
        assumption
      · exact hall _

theorem Agree.delete (h : Agree P t u) (ho : t.isOpen = true) {recordType : String}
    {primaryKey : Value} {a : Answer}
    (hrun : t.perform s (.delete recordType primaryKey) = (a, t', s))
    (hP : ∀ name ∈ t'.written, P name)
    (hvain : a = .deleted false → ¬ P recordType →
      (u.perform s (.delete recordType primaryKey)).1 = a) :
    ∃ u', u.perform s (.delete recordType primaryKey) = (a, u', s) ∧ Agree P t' u' := by
  rw [perform_delete ho] at hrun
  rw [perform_delete (h.isOpen.trans ho)] at hvain ⊢
  cases hdelete : s.deleteFrom recordType primaryKey (t.tables.lookup? recordType) with
  | error e =>
    rw [hdelete] at hrun
    cases hrun
    rw [Store.deleteFrom_eq_error hdelete]
    exact ⟨u, rfl, h⟩
  | ok found =>
    rw [hdelete] at hrun
    cases found with
    | some table =>
      cases hrun
      have hname : P recordType := hP _ (mem_addName.mpr (Or.inl rfl))
      rw [← h.tables _ hname, hdelete]
      exact ⟨_, rfl, h.wrote _ _⟩
    | none =>
      cases hrun
      by_cases hname : P recordType
      · rw [← h.tables _ hname, hdelete]
        exact ⟨u, rfl, h⟩
      · -- a vain delete under a type that nothing is known of was answered alike by assumption
        have ha := hvain rfl hname
        split at ha <;> cases ha
        exact ⟨u, rfl, h⟩

/-- **A request asked twice** of transactions that agree on the conflict set gets one answer, if the
answers that may look beyond the conflict set are the same; and the transactions still agree. -/
theorem Agree.perform (h : Agree P t u) {r : Request} {a : Answer}
    (hrun : t.perform s r = (a, t', s)) (ho : t'.isOpen = true)
    (hr : r.isSerializable = true)
    (hP : ∀ name, name ∈ t'.written ∨ name ∈ t'.read → P name)
    (hunguarded : ∀ name, r.unguarded? a = some name → ¬ P name → (u.perform s r).1 = a) :
    ∃ u', u.perform s r = (a, u', s) ∧ Agree P t' u' := by
  have hp := perform_performed s t r
  rw [hrun] at hp
  have hopen : t.isOpen = true := isOpen_of_perform (by rw [hrun]; exact ho)
  cases r with
  | read q =>
    refine h.read hopen hrun hr (fun name hm => hP name (Or.inr hm)) fun hq hname => ?_
    exact hunguarded _ (by simp [Request.unguarded?, hq]) hname
  | save recordType r =>
    refine h.save hopen hrun (fun name hm => hP name (Or.inl hm)) fun index key ha hname => ?_
    exact hunguarded _ (by simp [Request.unguarded?, ha]) hname
  | delete recordType primaryKey =>
    refine h.delete hopen hrun (fun name hm => hP name (Or.inl hm)) fun ha hname => ?_
    exact hunguarded _ (by simp [Request.unguarded?, ha]) hname
  | commit => exact absurd ho (by simp [show t'.isOpen = false from hp.ends (Or.inl rfl)])
  | cancel => exact absurd ho (by simp [show t'.isOpen = false from hp.ends (Or.inr rfl)])

/-- The conflict set of a transaction that stays open only grows. -/
theorem perform_joined {s : Store} {t : Transaction} {r : Request}
    (ho : (t.perform s r).2.1.isOpen = true) {name : String}
    (h : name ∈ t.written ∨ name ∈ t.read) :
    name ∈ (t.perform s r).2.1.written ∨ name ∈ (t.perform s r).2.1.read := by
  have hp := perform_performed s t r
  -- written types stay written by the journal of the request, read ones by cases on it
  refine h.imp (fun hw => ?_) fun hr => ?_
  · rw [hp.written ho, mem_foldl_addName]
    exact Or.inl hw
  · cases r with
    | read q =>
      rw [perform_read]
      exact mem_noteReads.mpr (Or.inr hr)
    | save recordType r =>
      rcases hs : t.save s recordType r with ⟨e | u, t'⟩
      · simpa only [perform, hs, save_eq_error hs] using hr
      · obtain ⟨-, table, -, rfl⟩ := save_eq_ok hs
        simpa only [perform, hs, wrote] using hr
    | delete recordType primaryKey =>
      cases hd : t.delete s recordType primaryKey with
      | error e => simpa only [perform, hd] using hr
      | ok p =>
        obtain ⟨found, t'⟩ := p
        have hfound := (delete_eq_ok hd).2
        cases found with
        | false =>
          obtain rfl : t' = t := by simpa using hfound
          simpa only [perform, hd] using hr
        | true =>
          obtain ⟨-, -, -, -, hread, -⟩ := by simpa using hfound
          simpa only [perform, hd, hread] using hr
    | commit => exact absurd rfl (ne_commit_of_open ho)
    | cancel => exact absurd ho (by simp [hp.ends (Or.inr rfl)])

theorem performAll_joined {s : Store} : ∀ {rs : List Request} {t : Transaction},
    (t.performAll s rs).2.1.isOpen = true → ∀ {name : String},
    name ∈ t.written ∨ name ∈ t.read →
    name ∈ (t.performAll s rs).2.1.written ∨ name ∈ (t.performAll s rs).2.1.read
  | [], _, _, _, h => h
  | r :: rest, t, ho, name, h => by
    rw [performAll_cons] at ho ⊢
    exact performAll_joined ho (perform_joined (isOpen_of_performAll ho) h)

/-- The same for requests in a row: it is one induction over them, in which the transactions
agree all the way. -/
theorem Agree.performAll {s : Store} : ∀ {exchanged : List (Request × Answer)}
    {t t' u : Transaction}, Agree P t u →
    t.performAll s (exchanged.map (·.1)) = (exchanged.map (·.2), t', s) → t'.isOpen = true →
    (∀ p ∈ exchanged, p.1.isSerializable = true) →
    (∀ name, name ∈ t'.written ∨ name ∈ t'.read → P name) →
    (∀ (k : Nat) r a name, exchanged[k]? = some (r, a) → r.unguarded? a = some name → ¬ P name →
      (u.performAll s (exchanged.map (·.1))).1[k]? = some a) →
    ∃ u', u.performAll s (exchanged.map (·.1)) = (exchanged.map (·.2), u', s) ∧ Agree P t' u'
  | [], t, t', u, h, hrun, _, _, _, _ => by
    cases hrun
    exact ⟨u, rfl, h⟩
  | (r, a) :: rest, t, t', u, h, hrun, ho, hser, hP, hunguarded => by
    obtain ⟨t₁, hrun₁, ho₁, hrest⟩ := performAll_cons_eq hrun ho
    -- what the first request puts into the conflict set is still there at the end
    have hP₁ : ∀ name, name ∈ t₁.written ∨ name ∈ t₁.read → P name := by
      intro name hname
      have hopen : (t₁.performAll s (rest.map (·.1))).2.1.isOpen = true := by
        rw [hrest]
        exact ho
      have hjoined := performAll_joined hopen hname
      rw [hrest] at hjoined
      exact hP name hjoined
    obtain ⟨u₁, hu₁, hagree⟩ := h.perform hrun₁ ho₁ (hser _ List.mem_cons_self) hP₁
      (fun name hname hnot => by
        have hk := hunguarded 0 r a name rfl hname hnot
        rw [List.map_cons, performAll_cons] at hk
        simpa using hk)
    obtain ⟨u', hu', hagree'⟩ := hagree.performAll hrest ho
      (fun p hp => hser p (List.mem_cons_of_mem _ hp)) hP
      (fun k r' a' name hk hname hnot => by
        have hk' := hunguarded (k + 1) r' a' name (by simpa using hk) hname hnot
        rw [List.map_cons, performAll_cons, hu₁] at hk'
        simpa using hk')
    refine ⟨u', ?_, hagree'⟩
    rw [List.map_cons, List.map_cons, performAll_cons, hu₁, hu']

/-! ## Committing alone -/

theorem foldl_publish_congr {t u : Transaction} {names : List String} (committed : Tables)
    (ht : ∀ name ∈ names, t.tables.lookup? name = u.tables.lookup? name)
    (hv : ∀ name ∈ names, t.versionAtBegin name = u.versionAtBegin name) :
    names.foldl t.publish committed = names.foldl u.publish committed := by
  induction names generalizing committed with
  | nil => rfl
  | cons n names ih =>
    have hn : t.publish committed n = u.publish committed n := by
      unfold publish
      rw [ht n List.mem_cons_self, hv n List.mem_cons_self]
    rw [List.foldl_cons, List.foldl_cons, hn]
    exact ih _ (fun name hm => ht name (List.mem_cons_of_mem _ hm))
      fun name hm => hv name (List.mem_cons_of_mem _ hm)

/-- A transaction whose tables are all at the version of its beginning commits. -/
theorem commit_of_current {s : Store} {u : Transaction} (ho : u.isOpen = true)
    (hw : u.written ≠ []) (hv : ∀ name, versionIn s.committed name = u.versionAtBegin name) :
    (u.commit s).1 = .ok { s with committed := u.written.foldl u.publish s.committed } := by
  have hc : u.conflict? s = none := by
    unfold conflict?
    exact List.find?_eq_none.mpr fun name _ => by simp [hv name]
  unfold commit
  simp [ho, hw, hc]

/-- **Transactions that agree on what they wrote publish the same,** if their tables are at the
versions that they know. -/
theorem Agree.commit (h : Agree P t u) (ho : t.isOpen = true) (hw : t.written ≠ [])
    (hP : ∀ name ∈ t.written, P name)
    (ht : ∀ name ∈ t.written, versionIn s.committed name = t.versionAtBegin name)
    (hu : ∀ name, versionIn s.committed name = u.versionAtBegin name) :
    u.perform s .commit = (.done, (u.commit s).2,
      { s with committed := t.written.foldl t.publish s.committed }) := by
  have hcommit := commit_of_current (h.isOpen.trans ho) (h.written.symm ▸ hw) hu
  have hpublish : u.written.foldl u.publish s.committed =
      t.written.foldl t.publish s.committed := by
    rw [h.written]
    refine (foldl_publish_congr _ (fun name hm => h.tables name (hP name hm))
      fun name hm => ?_).symm
    rw [← hu, ht name hm]
  rw [hpublish] at hcommit
  unfold Transaction.perform
  rw [show u.commit s = ((u.commit s).1, (u.commit s).2) from rfl, hcommit]

end Transaction

namespace SharedStore

open Transaction

/-- **When a committed transaction could have run alone.** Take a transaction of any run that wrote
a table, read records and entries with the promise of serializability only, and commits. Its
requests, asked again with nothing in between at the state right before its commit, get the same
answers and lead to the same state exactly if those answers are the same that it could get from a
table outside its conflict set that was committed to since it began: to questions for ranks, to
deletions that found nothing, and to saves that a unique index refused. -/
theorem commit_alone_iff {start : Store} {ops : List Operation} {history : History}
    {y : SharedStore} (h : run start ops = some (history, y)) {i : Nat} {t t' : Transaction}
    {s' : Store} (ht : y.transactions[i]? = some t) (hc : t.commit y.store = (.ok s', t'))
    (hw : t.written ≠ []) (hser : ∀ p ∈ exchanges i history, p.1.isSerializable = true) :
    let exchanged := exchanges i history
    let alone := y.store.begin.performAll y.store (exchanged.map (·.1) ++ [.commit])
    (alone.1 = exchanged.map (·.2) ++ [.done] ∧ alone.2.2 = s') ↔
      ∀ (k : Nat) r a name, exchanged[k]? = some (r, a) → r.unguarded? a = some name →
        versionIn y.store.committed name ≠ t.versionAtBegin name → alone.1[k]? = some a := by
  intro exchanged alone
  obtain ⟨ho, rfl, hversions⟩ := commit_eq_ok hc
  obtain ⟨b, hb, -, hrun⟩ := (run_tracked h).inFlight i t ht ho
  have halone : alone = _ := performAll_append y.store y.store.begin (exchanged.map (·.1)) [.commit]
  constructor
  · rintro ⟨hanswers, -⟩ k r a name hk - -
    have hlt : k < exchanged.length := (List.getElem?_eq_some_iff.mp hk).1
    rw [hanswers, List.getElem?_append_left (by simpa using hlt), List.getElem?_map, hk]
    rfl
  · intro hunguarded
    -- what the transaction did at its own beginning, it could do from the same tables
    -- at the new state
    have hopen : (b.begin.performAll b (exchanged.map (·.1))).2.1.isOpen = true := by
      rw [hrun]
      exact ho
    have hrun' : b.begin.performAll y.store (exchanged.map (·.1)) =
        (exchanged.map (·.2), t, y.store) := by
      rw [performAll_sameShape hb.toSameShape hopen, hrun]
    have hagree : Agree (fun name => versionIn y.store.committed name = t.versionAtBegin name)
        b.begin y.store.begin := by
      refine ⟨rfl, rfl, fun name hv => hb.unchanged name ?_⟩
      rw [hv, versionAtBegin_of_begin (performAll_open hrun ho).2.2.1]
    obtain ⟨u, hu, hfinal⟩ := hagree.performAll hrun' ho hser (hversions hw) (by
      intro k r a name hk hname hv
      have hlt : k < exchanged.length := (List.getElem?_eq_some_iff.mp hk).1
      have hlen : (y.store.begin.performAll y.store (exchanged.map (·.1))).1.length =
          exchanged.length := by rw [length_performAll, List.length_map]
      have hka := hunguarded k r a name hk hname hv
      rw [halone] at hka
      dsimp only at hka
      rwa [List.getElem?_append_left (by omega)] at hka)
    have hcurrent := versionAtBegin_of_begin (performAll_open hu (hfinal.isOpen.trans ho)).2.2.1
    have hlast := hfinal.commit ho hw (fun name hm => hversions hw name (.inl hm))
      (fun name hm => hversions hw name (.inl hm)) fun name => (hcurrent name).symm
    rw [halone, hu]
    simp only [performAll, hlast, and_self]

end SharedStore

/-! ## Looking at a table without joining it -/

namespace Sample

/-- A transaction looks at the items in every way, and a note is saved before it saves an item. -/
def currentLook : List Operation := [
  .request 0 (.save "items" ⟨[.int 2, .int 6]⟩), .insert "notes" [⟨[.int 1]⟩],
  .request 0 (.save "items" ⟨[.int 2, .int 5]⟩), .request 0 (.delete "items" (.int 3)),
  .request 0 (.read (.rankOf bySize (.int 9))),
  .request 0 (.read (.scanRecords "items" .serializable)), .begin,
  .insert "items" [⟨[.int 1, .int 5]⟩]]

/-- A transaction finds no item to delete and none below a size, and an item is saved before
it saves a note. -/
def staleLook : List Operation := [
  .request 0 (.save "notes" ⟨[.int 1]⟩), .insert "items" [⟨[.int 1, .int 1]⟩],
  .request 0 (.delete "items" (.int 1)), .request 0 (.read (.rankOf bySize (.int 5))), .begin]

end Sample

namespace SharedStore

/-- Whether a run ends with a transaction that would commit and of which `test` holds. -/
def commitsWith (start : Store) (ops : List Operation) (i : Nat)
    (test : History → SharedStore → Transaction → Bool) : Bool :=
  match run start ops with
  | none => false
  | some (history, y) =>
    match y.transactions[i]? with
    | none => false
    | some t => (t.commit y.store).1.isOk && test history y t

theorem exists_of_commitsWith {start : Store} {ops : List Operation} {i : Nat}
    {test : History → SharedStore → Transaction → Bool}
    (h : commitsWith start ops i test = true) :
    ∃ history y t s' t', run start ops = some (history, y) ∧ y.transactions[i]? = some t ∧
      t.commit y.store = (.ok s', t') ∧ test history y t = true := by
  unfold commitsWith at h
  split at h
  · cases h
  · rename_i history y hrun
    split at h
    · cases h
    · rename_i t ht
      rw [Bool.and_eq_true] at h
      cases hc : t.commit y.store with
      | mk outcome t' =>
        cases outcome with
        | error e => simp [hc, Except.isOk, Except.toBool] at h
        | ok s' => exact ⟨history, y, t, s', t', hrun, ht, hc, h.2⟩

open Sample

theorem commit_alone_iff_currentLook : ∃ history y t s' t',
    run { catalog } currentLook = some (history, y) ∧ y.transactions[0]? = some t ∧
      t.commit y.store = (.ok s', t') ∧ t.written ≠ [] ∧
      (∀ p ∈ exchanges 0 history, p.1.isSerializable = true) ∧
      let exchanged := exchanges 0 history
      let alone := y.store.begin.performAll y.store (exchanged.map (·.1) ++ [.commit])
      (alone.1 = exchanged.map (·.2) ++ [.done] ∧ alone.2.2 = s') ↔
        ∀ (k : Nat) r a name, exchanged[k]? = some (r, a) → r.unguarded? a = some name →
          versionIn y.store.committed name ≠ t.versionAtBegin name → alone.1[k]? = some a := by
  have hcheck : commitsWith { catalog } currentLook 0 (fun history _ t =>
      t.written ≠ [] ∧ ∀ p ∈ exchanges 0 history, p.1.isSerializable = true) = true := by
    decide +kernel
  obtain ⟨history, y, t, s', t', hrun, ht, hc, htest⟩ := exists_of_commitsWith hcheck
  obtain ⟨hw, hser⟩ := of_decide_eq_true htest
  exact ⟨history, y, t, s', t', hrun, ht, hc, hw, hser, commit_alone_iff hrun ht hc hw hser⟩

/-- **Not every committed transaction could have run alone:** one that found nothing to delete and
no smaller item commits although an item was inserted since, and alone it is answered otherwise. -/
theorem exists_commit_not_alone : ∃ history y t s' t',
    run { catalog } staleLook = some (history, y) ∧ y.transactions[0]? = some t ∧
      t.commit y.store = (.ok s', t') ∧ t.written ≠ [] ∧
      (∀ p ∈ exchanges 0 history, p.1.isSerializable = true) ∧
      (y.store.begin.performAll y.store ((exchanges 0 history).map (·.1) ++ [.commit])).1 ≠
        (exchanges 0 history).map (·.2) ++ [.done] := by
  have hcheck : commitsWith { catalog } staleLook 0 (fun history y t =>
      t.written ≠ [] ∧ (∀ p ∈ exchanges 0 history, p.1.isSerializable = true) ∧
      (y.store.begin.performAll y.store ((exchanges 0 history).map (·.1) ++ [.commit])).1 ≠
        (exchanges 0 history).map (·.2) ++ [.done]) = true := by
    decide +kernel
  obtain ⟨history, y, t, s', t', hrun, ht, hc, htest⟩ := exists_of_commitsWith hcheck
  obtain ⟨hw, hser, hne⟩ := of_decide_eq_true htest
  exact ⟨history, y, t, s', t', hrun, ht, hc, hw, hser, hne⟩

end SharedStore

end RecordLayer
