import RecordLayer.Proofs.Store.Saving

/-!
# What the requests to one transaction leave behind

A transaction's own tables are the tables of its beginning with its writes applied, and the tables
that it counts as written are those of its writes; nothing else that it is asked changes either. The
version of a table takes no part in this: a change of a table depends on its contents only.
-/

namespace RecordLayer

/-! ## Contents of tables -/

namespace Table

/-- What a table keeps, without the number of commits. -/
def contents (t : Table) : SortedMap Value Record × SortedMap String IndexData :=
  (t.records, t.indexes)

theorem contents_version (t : Table) (n : Nat) :
    { t with version := n }.contents = t.contents := rfl

theorem eq_of_contents {a b : Table} (h : a.contents = b.contents) :
    a = { b with version := a.version } := by
  obtain ⟨hr, hi⟩ := Prod.mk.inj h
  cases a
  cases b
  simp_all

theorem updateIndex_version (table : Table) (n : Nat) (i : Index) (f : IndexData → IndexData) :
    { table with version := n }.updateIndex i f = { table.updateIndex i f with version := n } := by
  unfold updateIndex
  have hd : { table with version := n }.data? i = table.data? i := rfl
  rw [hd]
  cases table.data? i <;> rfl

theorem foldl_updateIndex_version (f : Index → IndexData → IndexData) (indexes : List Index)
    (table : Table) (n : Nat) :
    indexes.foldl (fun table i => table.updateIndex i (f i)) { table with version := n } =
      { indexes.foldl (fun table i => table.updateIndex i (f i)) table with version := n } := by
  induction indexes generalizing table with
  | nil => rfl
  | cons i rest ih => simp only [List.foldl_cons, updateIndex_version, ih]

theorem unlink_version (table : Table) (n : Nat) (t : RecordType) (indexes : List Index)
    (primaryKey : Value) :
    { table with version := n }.unlink t indexes primaryKey =
      { table.unlink t indexes primaryKey with version := n } := by
  unfold unlink
  dsimp only
  cases SortedMap.lookup? primaryKey table.records with
  | none => rfl
  | some old =>
    exact foldl_updateIndex_version (fun i => (·.unlink ⟨i.keyOf t old, primaryKey⟩)) indexes
      { table with records := SortedMap.drop primaryKey table.records } n

theorem link_version (table : Table) (n : Nat) (t : RecordType) (indexes : List Index)
    (r : Record) :
    { table with version := n }.link t indexes r =
      { table.link t indexes r with version := n } :=
  foldl_updateIndex_version (fun i => (·.link (i.entryOf t r))) indexes
    { table with records := table.records.put (t.keyOf r) r } n

end Table

/-! ## Writes -/

namespace Write

theorem applyTo_eq_none {s : Store} {table : Option Table} {w : Write}
    (h : w.applyTo s table = none) : table = none := by
  cases w with
  | save recordType r =>
    simp only [applyTo] at h
    cases hc : s.catalog.recordType? recordType with
    | none => simpa only [hc] using h
    | some t => simp [hc] at h
  | delete recordType primaryKey =>
    simp only [applyTo] at h
    cases hc : s.catalog.recordType? recordType with
    | none => simpa only [hc] using h
    | some t => simpa [hc] using h

/-- **A write depends on the contents of its table only.** -/
theorem applyTo_contents {s : Store} {a b : Option Table} (w : Write)
    (h : a.map Table.contents = b.map Table.contents) :
    (w.applyTo s a).map Table.contents = (w.applyTo s b).map Table.contents := by
  cases a with
  | none =>
    cases b with
    | none => rfl
    | some b => simp at h
  | some a =>
    cases b with
    | none => simp at h
    | some b =>
      have hab := Table.eq_of_contents (Option.some.inj h)
      generalize a.version = n at hab
      subst hab
      cases w with
      | save recordType r =>
        simp only [applyTo]
        cases s.catalog.recordType? recordType with
        | none => exact h
        | some t =>
          simp only [Option.getD_some, Table.unlink_version, Table.link_version, Option.map_some,
            Table.contents_version]
      | delete recordType primaryKey =>
        simp only [applyTo]
        cases s.catalog.recordType? recordType with
        | none => exact h
        | some t => simp only [Option.map_some, Table.unlink_version, Table.contents_version]

theorem lookup?_apply (s : Store) (tables : Tables) (w : Write) (name : String) :
    (w.apply s tables).lookup? name =
      if w.recordType = name then w.applyTo s (tables.lookup? name)
      else tables.lookup? name := by
  unfold apply
  split
  · rename_i hnone
    split
    · rename_i hname
      rw [hname] at hnone
      rw [hnone, applyTo_eq_none hnone]
    · rfl
  · rename_i table hsome
    rw [SortedMap.lookup?_put]
    by_cases hname : w.recordType = name
    · rw [if_pos hname.symm, if_pos hname, ← hsome, hname]
    · rw [if_neg (Ne.symm hname), if_neg hname]

/-- The writes of a list to one table decide what becomes of it. -/
theorem lookup?_foldl_apply (s : Store) (ws : List Write) (tables : Tables) (name : String) :
    (ws.foldl (apply s) tables).lookup? name =
      (ws.filter (·.recordType = name)).foldl (applyTo s) (tables.lookup? name) := by
  induction ws generalizing tables with
  | nil => rfl
  | cons w ws ih =>
    rw [List.foldl_cons, ih, lookup?_apply]
    by_cases hname : w.recordType = name
    · rw [if_pos hname, List.filter_cons_of_pos (by simpa using hname), List.foldl_cons]
    · rw [if_neg hname, List.filter_cons_of_neg (by simpa using hname)]

/-- No write takes a table away. -/
theorem isSome_lookup?_foldl_apply {s : Store} {name : String} (ws : List Write)
    {tables : Tables} (h : (tables.lookup? name).isSome) :
    ((ws.foldl (apply s) tables).lookup? name).isSome := by
  induction ws generalizing tables with
  | nil => exact h
  | cons w ws ih =>
    refine ih ?_
    rw [lookup?_apply]
    split
    · cases ha : w.applyTo s (tables.lookup? name) with
      | none => simp [applyTo_eq_none ha] at h
      | some table => rfl
    · exact h

theorem foldl_applyTo_contents {s : Store} (ws : List Write) {a b : Option Table}
    (h : a.map Table.contents = b.map Table.contents) :
    (ws.foldl (applyTo s) a).map Table.contents = (ws.foldl (applyTo s) b).map Table.contents := by
  induction ws generalizing a b with
  | nil => exact h
  | cons w ws ih => exact ih (applyTo_contents w h)

end Write

/-! ## Stores that writes cannot tell apart -/

namespace Store

/-- Two states of one store: what is fixed at its creation agrees. -/
structure SameShape (a b : Store) : Prop where
  catalog : a.catalog = b.catalog
  heights : a.heights = b.heights

theorem SameShape.newTable {a b : Store} (h : SameShape a b) (name : String) :
    a.newTable name = b.newTable name := by
  unfold Store.newTable
  rw [h.catalog, h.heights]

theorem SameShape.applyTo {a b : Store} (h : SameShape a b) (table : Option Table) (w : Write) :
    w.applyTo a table = w.applyTo b table := by
  cases w <;> simp only [Write.applyTo, h.catalog, h.newTable]

theorem SameShape.foldl_applyTo {a b : Store} (h : SameShape a b) (ws : List Write)
    (table : Option Table) :
    ws.foldl (Write.applyTo a) table = ws.foldl (Write.applyTo b) table := by
  have hf : Write.applyTo a = Write.applyTo b := funext fun x => funext fun w => h.applyTo x w
  rw [hf]

end Store

/-! ## Requests -/

theorem Transaction.mem_addName {name other : String} {names : List String} :
    other ∈ addName name names ↔ other = name ∨ other ∈ names := by
  unfold addName
  split
  · rename_i h
    simp only [List.contains_iff_mem] at h
    constructor
    · exact Or.inr
    · rintro (rfl | h') <;> assumption
  · exact List.mem_cons

namespace Transaction

/-- What a request that is answered leaves of a transaction: the tables with the write applied, and
the written names with the name of the write. A commit and a cancellation close it. -/
structure Performed (s : Store) (t : Transaction) (r : Request) (a : Answer) (t' : Transaction) :
    Prop where
  tables : t'.tables = (r.write? a).toList.foldl (Write.apply s) t.tables
  beginVersions : t'.beginVersions = t.beginVersions
  /-- A closed transaction has no writes. -/
  closed : t.isOpen = false → r.write? a = none ∧ t'.isOpen = false
  written : t'.isOpen = true →
    t'.written = (r.write? a).toList.foldl (fun names w => addName w.recordType names) t.written
  ends : r = .commit ∨ r = .cancel → t'.isOpen = false
  /-- A write leaves a table behind. -/
  stored : ∀ w, r.write? a = some w → (t'.tables.lookup? w.recordType).isSome

theorem performed_unchanged {s : Store} {t : Transaction} {r : Request} {a : Answer}
    (hw : r.write? a = none) (hends : r = .commit ∨ r = .cancel → t.isOpen = false) :
    Performed s t r a t where
  tables := by rw [hw]; rfl
  beginVersions := rfl
  closed h := ⟨hw, h⟩
  written _ := by rw [hw]; rfl
  ends := hends
  stored w h := by rw [hw] at h; cases h

/-- A save that is not refused does to the tables what its write does. -/
theorem tables_wrote {s : Store} {t : Transaction} {recordType : String} {r : Record}
    {table : Table} (h : s.saveInto recordType r (t.tables.lookup? recordType) = .ok table) :
    (t.wrote recordType table).tables = (Write.save recordType r).apply s t.tables := by
  obtain ⟨type, hc, -, -, rfl⟩ := Store.saveInto_eq_ok h
  simp [wrote, Write.apply, Write.applyTo, Write.recordType, hc]

theorem delete_eq_ok {s : Store} {t t' : Transaction} {recordType : String} {primaryKey : Value}
    {found : Bool} (h : t.delete s recordType primaryKey = .ok (found, t')) :
    t.isOpen = true ∧
      if found then
        t'.isOpen = true ∧ t'.tables = (Write.delete recordType primaryKey).apply s t.tables ∧
          t'.written = addName recordType t.written ∧ t'.beginVersions = t.beginVersions ∧
          t'.read = t.read ∧ (t'.tables.lookup? recordType).isSome
      else t' = t := by
  unfold delete at h
  cases ho : t.isOpen with
  | false => simp [ho] at h
  | true =>
    simp only [ho, Bool.not_true, Bool.false_eq_true, if_false] at h
    refine ⟨rfl, ?_⟩
    cases hc : s.catalog.recordType? recordType with
    | none => simp [hc] at h
    | some type =>
      simp only [hc] at h
      cases hl : t.tables.lookup? recordType with
      | none =>
        simp only [hl, Except.ok.injEq, Prod.mk.injEq] at h
        obtain ⟨rfl, rfl⟩ := h
        simp
      | some table =>
        simp only [hl] at h
        split at h
        · simp only [Except.ok.injEq, Prod.mk.injEq] at h
          obtain ⟨rfl, rfl⟩ := h
          simp [Write.apply, Write.applyTo, Write.recordType, hc, hl, SortedMap.lookup?_put]
        · simp only [Except.ok.injEq, Prod.mk.injEq] at h
          obtain ⟨rfl, rfl⟩ := h
          simp

/-- A commit closes the transaction, whatever comes of it. -/
theorem commit_closed (s : Store) (t : Transaction) :
    (t.commit s).2.isOpen = false ∧ (t.commit s).2.tables = t.tables ∧
      (t.commit s).2.beginVersions = t.beginVersions := by
  unfold commit
  cases ho : t.isOpen with
  | false => simp [ho]
  | true =>
    simp only [Bool.not_true, Bool.false_eq_true, if_false]
    split
    · simp
    · split <;> simp

theorem perform_performed (s : Store) (t : Transaction) (r : Request) :
    Performed s t r (t.perform s r).1 (t.perform s r).2.1 := by
  cases r with
  | read q =>
    -- a read may fail or not, and leaves the transaction as it is but for what it has read
    have hw : ∀ a, (Request.read q).write? a = none := fun a => rfl
    cases hrun : (q.run (t.view s.catalog)).run with
    | mk outcome trace =>
      cases outcome <;> simp only [perform, hrun] <;>
      exact ⟨by rw [hw]; rfl, rfl, fun h => ⟨hw _, h⟩, fun _ => by rw [hw]; rfl, by simp,
        fun w h => by rw [hw] at h; cases h⟩
  | save recordType r =>
    rcases hs : t.save s recordType r with ⟨e | u, t'⟩
    · simp only [perform, hs, save_eq_error hs]
      exact performed_unchanged rfl (by simp)
    · obtain ⟨ho, table, htable, rfl⟩ := save_eq_ok hs
      simp only [perform, hs]
      refine ⟨tables_wrote htable, rfl, by simp [ho], fun _ => rfl, by simp, fun w h => ?_⟩
      cases h
      exact Option.isSome_iff_exists.mpr ⟨table, SortedMap.lookup?_put_self _ _ _⟩
  | delete recordType primaryKey =>
    cases hd : t.delete s recordType primaryKey with
    | error e =>
      simp only [perform, hd]
      exact performed_unchanged rfl (by simp)
    | ok p =>
      obtain ⟨found, t'⟩ := p
      obtain ⟨ho, h⟩ := delete_eq_ok hd
      simp only [perform, hd]
      cases found with
      | false =>
        obtain rfl : t' = t := by simpa using h
        exact performed_unchanged rfl (by simp)
      | true =>
        obtain ⟨ho', ht, hw, hb, -, hstored⟩ := by simpa using h
        exact ⟨ht, hb, by simp [ho], fun _ => hw, by simp, fun w h => by cases h; exact hstored⟩
  | commit =>
    have hw : ∀ a, Request.commit.write? a = none := fun a => rfl
    obtain ⟨hc, ht, hb⟩ := commit_closed s t
    cases hrun : t.commit s with
    | mk outcome t' =>
      rw [hrun] at hc ht hb
      -- a commit closes the transaction, whether it succeeds or not
      have hopen : t'.isOpen = true → False := by simp [show t'.isOpen = false from hc]
      cases outcome <;> simp only [perform, hrun] <;>
      exact ⟨by rw [hw]; exact ht, hb, fun _ => ⟨hw _, hc⟩, fun h => (hopen h).elim, fun _ => hc,
        fun w h => by rw [hw] at h; cases h⟩
  | cancel =>
    exact ⟨rfl, rfl, fun _ => ⟨rfl, rfl⟩, fun h => by simp [perform, cancel] at h, fun _ => rfl,
      fun w h => by cases h⟩

/-- Only a commit can change the store. -/
theorem perform_store (s : Store) (t : Transaction) {r : Request} (h : r ≠ .commit) :
    (t.perform s r).2.2 = s := by
  cases r with
  | read q =>
    cases hrun : (q.run (t.view s.catalog)).run with
    | mk outcome trace => cases outcome <;> simp only [perform, hrun]
  | save recordType r =>
    rcases hs : t.save s recordType r with ⟨e | u, t'⟩ <;> simp only [perform, hs]
  | delete recordType primaryKey =>
    cases hd : t.delete s recordType primaryKey <;> simp only [perform, hd]
  | commit => exact absurd rfl h
  | cancel => rfl

theorem ne_commit_of_open {s : Store} {t : Transaction} {r : Request}
    (h : (t.perform s r).2.1.isOpen = true) : r ≠ .commit := by
  intro hc
  rw [(perform_performed s t r).ends (Or.inl hc)] at h
  cases h

theorem perform_store_of_open {s : Store} {t : Transaction} {r : Request}
    (h : (t.perform s r).2.1.isOpen = true) : (t.perform s r).2.2 = s :=
  perform_store s t (ne_commit_of_open h)

/-- A transaction that is open after a request was open before it. -/
theorem isOpen_of_perform {s : Store} {t : Transaction} {r : Request}
    (h : (t.perform s r).2.1.isOpen = true) : t.isOpen = true := by
  cases ho : t.isOpen with
  | true => rfl
  | false =>
    rw [((perform_performed s t r).closed ho).2] at h
    cases h

theorem performAll_closed (s : Store) {t : Transaction} (h : t.isOpen = false)
    (rs : List Request) : (t.performAll s rs).2.1.isOpen = false := by
  induction rs generalizing s t with
  | nil => exact h
  | cons r rest ih => exact ih _ ((perform_performed s t r).closed h).2

theorem performAll_cons (s : Store) (t : Transaction) (r : Request) (rest : List Request) :
    t.performAll s (r :: rest) =
      ((t.perform s r).1 :: ((t.perform s r).2.1.performAll (t.perform s r).2.2 rest).1,
        ((t.perform s r).2.1.performAll (t.perform s r).2.2 rest).2) := rfl

theorem isOpen_of_performAll {s : Store} {t : Transaction} {rs : List Request}
    (h : (t.performAll s rs).2.1.isOpen = true) : t.isOpen = true := by
  cases ho : t.isOpen with
  | true => rfl
  | false =>
    rw [performAll_closed s ho rs] at h
    cases h

/-- Of several requests that leave the transaction open, the first one leaves it open too, and the
store alone. -/
theorem performAll_cons_eq {s s' : Store} {t t' : Transaction} {r : Request} {a : Answer}
    {rs : List Request} {as : List Answer} (h : t.performAll s (r :: rs) = (a :: as, t', s'))
    (ho : t'.isOpen = true) :
    ∃ t₁, t.perform s r = (a, t₁, s) ∧ t₁.isOpen = true ∧ t₁.performAll s rs = (as, t', s') := by
  rw [performAll_cons] at h
  obtain ⟨hanswers, hend⟩ := Prod.mk.inj h
  obtain ⟨rfl, has⟩ := List.cons.inj hanswers
  have hrest : (t.perform s r).2.1.performAll (t.perform s r).2.2 rs = (as, t', s') :=
    Prod.ext has hend
  have ho₁ : (t.perform s r).2.1.isOpen = true :=
    isOpen_of_performAll (by rw [hrest]; exact ho)
  have hstore := perform_store_of_open ho₁
  rw [hstore] at hrest
  exact ⟨_, Prod.ext rfl (Prod.ext rfl hstore), ho₁, hrest⟩

/-- **Requests leave the store alone and the transaction open, or the transaction closed.** What
they leave of a transaction that is still open is what its writes make of it. -/
theorem performAll_open {s : Store} : ∀ {t t' : Transaction} {s' : Store}
    {exchanged : List (Request × Answer)},
    t.performAll s (exchanged.map (·.1)) = (exchanged.map (·.2), t', s') → t'.isOpen = true →
    s' = s ∧ t.isOpen = true ∧ t'.beginVersions = t.beginVersions ∧
      t'.tables = (writesOf exchanged).foldl (Write.apply s) t.tables ∧
      t'.written =
        (writesOf exchanged).foldl (fun names w => addName w.recordType names) t.written ∧
      ∀ w ∈ writesOf exchanged, (t'.tables.lookup? w.recordType).isSome
  | t, t', s', [], h, ho => by
    simp only [List.map_nil, performAll, Prod.mk.injEq, true_and] at h
    obtain ⟨rfl, rfl⟩ := h
    exact ⟨rfl, ho, rfl, rfl, rfl, by simp [writesOf]⟩
  | t, t', s', (r, a) :: rest, h, ho => by
    -- the first request, then the rest by induction: both leave the transaction open
    obtain ⟨t₁, hrun, ho₁, hrest⟩ := performAll_cons_eq h ho
    obtain ⟨rfl, -, hb, ht, hw, hstored⟩ := performAll_open hrest ho
    have hp : Performed s' t r a t₁ := by
      have hp := perform_performed s' t r
      rwa [hrun] at hp
    have hopen : t.isOpen = true := isOpen_of_perform (by rw [hrun]; exact ho₁)
    have hcons : writesOf ((r, a) :: rest) = (r.write? a).toList ++ writesOf rest := by
      cases hwr : r.write? a <;> simp [writesOf, hwr]
    refine ⟨rfl, hopen, hb.trans hp.beginVersions, ?_, ?_, ?_⟩
    · rw [ht, hp.tables, hcons, List.foldl_append]
    · rw [hw, hp.written ho₁, hcons, List.foldl_append]
    · intro w hmem
      rw [hcons, List.mem_append] at hmem
      rcases hmem with hmem | hmem
      · rw [ht]
        exact Write.isSome_lookup?_foldl_apply _ (hp.stored w (by simpa using hmem))
      · exact hstored w hmem

theorem performAll_append (s : Store) (t : Transaction) (rs rs' : List Request) :
    t.performAll s (rs ++ rs') =
      let (as, t₁, s₁) := t.performAll s rs
      let (as', t₂, s₂) := t₁.performAll s₁ rs'
      (as ++ as', t₂, s₂) := by
  induction rs generalizing s t with
  | nil => simp [performAll]
  | cons r rest ih => simp [performAll, ih]

theorem length_performAll (s : Store) (t : Transaction) (rs : List Request) :
    (t.performAll s rs).1.length = rs.length := by
  induction rs generalizing s t with
  | nil => rfl
  | cons r rest ih => simp [performAll, ih]

/-! ## Requests at another state of the store -/

/-- Only a commit looks at the committed state. -/
theorem perform_sameShape {b s : Store} (h : b.SameShape s) (t : Transaction) {r : Request}
    (hr : r ≠ .commit) : t.perform b r = ((t.perform s r).1, (t.perform s r).2.1, b) := by
  cases r with
  | read q =>
    simp only [perform, h.catalog]
    cases (q.run (t.view s.catalog)).run with
    | mk outcome trace => cases outcome <;> rfl
  | save recordType r =>
    have hs : t.save b recordType r = t.save s recordType r := by
      simp only [save, openTable, h.catalog, h.newTable]
    simp only [perform, hs]
    rcases t.save s recordType r with ⟨e | u, t'⟩ <;> rfl
  | delete recordType primaryKey =>
    have hd : t.delete b recordType primaryKey = t.delete s recordType primaryKey := by
      simp only [delete, h.catalog]
    simp only [perform, hd]
    cases t.delete s recordType primaryKey <;> rfl
  | commit => exact absurd rfl hr
  | cancel => rfl

theorem performAll_sameShape {b s : Store} (h : b.SameShape s) : ∀ {rs : List Request}
    {t : Transaction}, (t.performAll b rs).2.1.isOpen = true →
    t.performAll s rs = ((t.performAll b rs).1, (t.performAll b rs).2.1, s)
  | [], t, _ => rfl
  | r :: rest, t, ho => by
    have ho₁ : (t.perform b r).2.1.isOpen = true := isOpen_of_performAll ho
    have hne := ne_commit_of_open ho₁
    have hb := perform_sameShape h t hne
    rw [performAll_cons, hb] at ho
    rw [performAll_cons, performAll_cons, hb, perform_store s t hne,
      performAll_sameShape h ho]

end Transaction

end RecordLayer
