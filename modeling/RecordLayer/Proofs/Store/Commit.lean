import RecordLayer.Proofs.Store.Exchange

/-!
# What a commit does to the committed state

A table's version is raised by every commit that writes the table and by nothing else, so a version
that has not moved is a table that has not moved. A commit that succeeds has found the versions of
its written tables where they were at its beginning. Its private copies are then the committed
tables with its own writes applied, and publishing them overwrites nobody.
-/

namespace RecordLayer

open Transaction (versionIn addName)

/-! ## Later states of a store -/

/-- `s` is a later state of the store `b`: versions only grew, and a table of the same version is
the same table. -/
structure Store.Later (b s : Store) : Prop extends Store.SameShape b s where
  version_le : ∀ name, versionIn b.committed name ≤ versionIn s.committed name
  unchanged : ∀ name, versionIn b.committed name = versionIn s.committed name →
    b.committed.lookup? name = s.committed.lookup? name

namespace Store

theorem Later.refl (s : Store) : Later s s := ⟨⟨rfl, rfl⟩, fun _ => Nat.le_refl _, fun _ _ => rfl⟩

theorem Later.trans {a b c : Store} (h : Later a b) (h' : Later b c) : Later a c where
  catalog := h.catalog.trans h'.catalog
  heights := h.heights.trans h'.heights
  version_le name := Nat.le_trans (h.version_le name) (h'.version_le name)
  unchanged name hv := by
    have h₁ := h.version_le name
    have h₂ := h'.version_le name
    rw [h.unchanged name (by omega), h'.unchanged name (by omega)]

end Store

namespace Transaction

/-! ## Publishing -/

theorem mem_foldl_addName {name : String} (ws : List Write) (names : List String) :
    name ∈ ws.foldl (fun names w => addName w.recordType names) names ↔
      name ∈ names ∨ ∃ w ∈ ws, w.recordType = name := by
  induction ws generalizing names with
  | nil => simp
  | cons w ws ih =>
    rw [List.foldl_cons, ih, mem_addName]
    constructor
    · rintro ((rfl | h) | ⟨w', h, hw⟩)
      · exact Or.inr ⟨w, List.mem_cons_self, rfl⟩
      · exact Or.inl h
      · exact Or.inr ⟨w', List.mem_cons_of_mem _ h, hw⟩
    · rintro (h | ⟨w', h, hw⟩)
      · exact Or.inl (Or.inr h)
      · rcases List.mem_cons.mp h with rfl | h
        · exact Or.inl (Or.inl hw.symm)
        · exact Or.inr ⟨w', h, hw⟩

theorem lookup?_publish (t : Transaction) (committed : Tables) (name name' : String) :
    (t.publish committed name).lookup? name' =
      if name' = name then
        ((t.tables.lookup? name).map fun table =>
          { table with version := t.versionAtBegin name + 1 }).or (committed.lookup? name)
      else committed.lookup? name' := by
  unfold publish
  cases t.tables.lookup? name with
  | none =>
    by_cases h : name' = name
    · simp [h]
    · simp [h]
  | some table => rw [SortedMap.lookup?_put]; rfl

theorem lookup?_foldl_publish (t : Transaction) (names : List String) (committed : Tables)
    (name : String) :
    (names.foldl t.publish committed).lookup? name =
      if name ∈ names then
        ((t.tables.lookup? name).map fun table =>
          { table with version := t.versionAtBegin name + 1 }).or (committed.lookup? name)
      else committed.lookup? name := by
  induction names generalizing committed with
  | nil => simp
  | cons n names ih =>
    rw [List.foldl_cons, ih, lookup?_publish]
    by_cases hn : name = n
    · subst hn
      simp only [if_true, List.mem_cons, true_or]
      split
      · cases t.tables.lookup? name <;> rfl
      · rfl
    · simp only [List.mem_cons, hn, false_or, if_false]

theorem mem_conflicting {t : Transaction} {s : Store} (h : t.conflict? s = none) {name : String}
    (hm : name ∈ t.written ∨ name ∈ t.read) :
    versionIn s.committed name = t.versionAtBegin name := by
  unfold conflict? at h
  have hall := List.find?_eq_none.mp h name (by
    simpa [Text.sort, List.mem_append] using hm)
  simpa using hall

/-- **A commit that succeeds** has met no table of its conflict set at another version, and has put
its written tables in place of the committed ones. -/
theorem commit_eq_ok {s s' : Store} {t t' : Transaction} (h : t.commit s = (.ok s', t')) :
    t.isOpen = true ∧ s' = { s with committed := t.written.foldl t.publish s.committed } ∧
      (t.written ≠ [] → ∀ name, name ∈ t.written ∨ name ∈ t.read →
        versionIn s.committed name = t.versionAtBegin name) := by
  unfold commit at h
  cases ho : t.isOpen with
  | false => simp [ho] at h
  | true =>
    refine ⟨rfl, ?_⟩
    simp only [ho, Bool.not_true, Bool.false_eq_true, if_false] at h
    cases hw : t.written with
    | nil =>
      simp only [hw, List.isEmpty_nil, if_true, Prod.mk.injEq, Except.ok.injEq] at h
      exact ⟨h.1.symm, fun hne => absurd rfl hne⟩
    | cons n names =>
      simp only [hw, List.isEmpty_cons, Bool.false_eq_true, if_false] at h
      cases hc : t.conflict? s with
      | some name => simp [hc] at h
      | none =>
        simp only [hc, Prod.mk.injEq, Except.ok.injEq] at h
        refine ⟨h.1.symm, fun _ name hm => mem_conflicting hc ?_⟩
        rwa [hw]

/-! ## Transactions in flight -/

/-- An open transaction as it stands when the store has come to `s`: it was begun at an earlier
state, and exchanged these requests and answers since. -/
def InFlight (s : Store) (exchanged : List (Request × Answer)) (t : Transaction) : Prop :=
  ∃ b : Store, b.Later s ∧ t.isOpen = true ∧
    b.begin.performAll b (exchanged.map (·.1)) = (exchanged.map (·.2), t, b)

theorem inFlight_begin (s : Store) : InFlight s [] s.begin :=
  ⟨s, .refl s, rfl, rfl⟩

theorem InFlight.later {s s' : Store} {exchanged : List (Request × Answer)} {t : Transaction}
    (h : InFlight s exchanged t) (hs : s.Later s') : InFlight s' exchanged t := by
  obtain ⟨b, hb, ho, hrun⟩ := h
  exact ⟨b, hb.trans hs, ho, hrun⟩

theorem versionAtBegin_of_begin {b : Store} {t : Transaction}
    (h : t.beginVersions = b.begin.beginVersions) (name : String) :
    t.versionAtBegin name = versionIn b.committed name := by
  unfold versionAtBegin versionIn
  rw [h]
  have hmap := SortedMap.lookup?_map name (fun table : Table => table.version) b.committed
  unfold Store.begin
  rw [hmap]
  cases b.committed.lookup? name <;> rfl

/-- What is known of a transaction in flight, in terms of the store as it is now. -/
structure Standing (s : Store) (exchanged : List (Request × Answer)) (t : Transaction) : Prop where
  version_le : ∀ name, t.versionAtBegin name ≤ versionIn s.committed name
  /-- The private copy of a table that nobody committed to is the committed table with the
  transaction's own writes. -/
  tables : ∀ name, versionIn s.committed name = t.versionAtBegin name →
    t.tables.lookup? name =
      ((writesOf exchanged).filter (·.recordType = name)).foldl (Write.applyTo s)
        (s.committed.lookup? name)
  mem_written : ∀ name, name ∈ t.written ↔ ∃ w ∈ writesOf exchanged, w.recordType = name
  stored : ∀ name ∈ t.written, (t.tables.lookup? name).isSome

theorem InFlight.standing {s : Store} {exchanged : List (Request × Answer)} {t : Transaction}
    (h : InFlight s exchanged t) : Standing s exchanged t := by
  obtain ⟨b, hb, ho, hrun⟩ := h
  obtain ⟨-, -, hbegin, htables, hwritten, hstored⟩ := performAll_open hrun ho
  have hversion := versionAtBegin_of_begin hbegin
  have hmem : ∀ name, name ∈ t.written ↔ ∃ w ∈ writesOf exchanged, w.recordType = name := by
    intro name
    rw [hwritten, mem_foldl_addName]
    simp [Store.begin]
  refine ⟨?_, ?_, hmem, ?_⟩
  · intro name
    rw [hversion]
    exact hb.version_le name
  · intro name hv
    rw [htables, Write.lookup?_foldl_apply, hb.toSameShape.foldl_applyTo]
    have hsame := hb.unchanged name (by rw [hv, hversion])
    rw [show b.begin.tables = b.committed from rfl, hsame]
  · intro name hm
    obtain ⟨w, hw, rfl⟩ := (hmem name).mp hm
    exact hstored w hw

/-- **What a commit publishes:** every table with the transaction's writes to it applied, the
version raised by one where there are any. -/
theorem Standing.commit {s s' : Store} {exchanged : List (Request × Answer)} {t t' : Transaction}
    (h : Standing s exchanged t) (hc : t.commit s = (.ok s', t')) (name : String) :
    (s'.committed.lookup? name).map Table.contents =
        (((writesOf exchanged).filter (·.recordType = name)).foldl (Write.applyTo s)
          (s.committed.lookup? name)).map Table.contents ∧
      versionIn s'.committed name =
        versionIn s.committed name + if name ∈ t.written then 1 else 0 := by
  obtain ⟨-, rfl, hversions⟩ := commit_eq_ok hc
  dsimp only [versionIn]
  rw [lookup?_foldl_publish]
  by_cases hm : name ∈ t.written
  · have hv := hversions (List.ne_nil_of_mem hm) name (Or.inl hm)
    rw [if_pos hm, if_pos hm, ← h.tables name hv]
    obtain ⟨table, htable⟩ := Option.isSome_iff_exists.mp (h.stored name hm)
    rw [htable]
    exact ⟨rfl, by simpa [versionIn] using hv.symm⟩
  · have hnone : (writesOf exchanged).filter (·.recordType = name) = [] := by
      refine List.filter_eq_nil_iff.mpr fun w hw => ?_
      simpa using fun he => hm ((h.mem_written name).mpr ⟨w, hw, he⟩)
    rw [if_neg hm, if_neg hm, hnone]
    exact ⟨rfl, rfl⟩

theorem Standing.commit_later {s s' : Store} {exchanged : List (Request × Answer)}
    {t t' : Transaction} (h : Standing s exchanged t) (hc : t.commit s = (.ok s', t')) :
    s.Later s' where
  catalog := by rw [(commit_eq_ok hc).2.1]
  heights := by rw [(commit_eq_ok hc).2.1]
  version_le name := by rw [(h.commit hc name).2]; exact Nat.le_add_right _ _
  unchanged name hv := by
    have hn : name ∉ t.written := by
      intro hm
      rw [(h.commit hc name).2, if_pos hm] at hv
      omega
    rw [(commit_eq_ok hc).2.1]
    dsimp only
    rw [lookup?_foldl_publish, if_neg hn]

/-! ## Records inserted at once -/

theorem saveAll_eq_ok {s : Store} {recordType : String} : ∀ {records : List Record}
    {t t' : Transaction} {u : Unit}, t.saveAll s recordType records = (.ok u, t') →
    t.isOpen = true → t'.isOpen = true ∧
      t.performAll s (records.map (.save recordType)) = (records.map fun _ => .done, t', s)
  | [], t, t', u, h, ho => by
    cases h
    exact ⟨ho, rfl⟩
  | r :: rest, t, t', u, h, ho => by
    rw [saveAll] at h
    rcases hs : t.save s recordType r with ⟨e | v, t₁⟩
    · rw [hs] at h
      cases h
    · rw [hs] at h
      have ho₁ : t₁.isOpen = true := by
        obtain ⟨-, table, -, rfl⟩ := save_eq_ok hs
        exact ho
      obtain ⟨ho', hrun⟩ := saveAll_eq_ok h ho₁
      refine ⟨ho', ?_⟩
      simp only [List.map_cons, performAll, perform, hs]
      rw [hrun]

/-- **Inserting records at once** is the commit of a transaction that saved them with nothing in
between. -/
theorem insertAll_eq_ok {s s' : Store} {recordType : String} {records : List Record}
    (h : s.insertAll recordType records = .ok s') :
    ∃ t t', InFlight s (records.map fun r => (.save recordType r, .done)) t ∧
      t.commit s = (.ok s', t') := by
  unfold Store.insertAll at h
  rcases hrun : s.begin.saveAll s recordType records with ⟨e | u, t⟩
  · rw [hrun] at h
    cases h
  · rw [hrun] at h
    have hc : (t.commit s).1 = .ok s' := h
    obtain ⟨ho, hall⟩ := saveAll_eq_ok hrun rfl
    refine ⟨t, (t.commit s).2, ⟨s, .refl s, ho, ?_⟩, by rw [← hc]⟩
    simpa [List.map_map, Function.comp_def] using hall

theorem writesOf_saves (recordType : String) (records : List Record) :
    writesOf (records.map fun r => (.save recordType r, .done)) =
      records.map (.save recordType) := by
  induction records with
  | nil => rfl
  | cons r rest ih =>
    rw [List.map_cons, List.map_cons, ← ih]
    rfl

end Transaction

end RecordLayer
