import RecordLayer.Proofs.Store.Commit

/-!
# No update is lost

However the requests of transactions interleave, the committed tables are what the writes of the
committed transactions make of an empty store, one transaction after the other in the order of their
commits; and the version of a table is the number of those that wrote it.

Two invariants of a run carry this. Every open transaction is in flight: it was begun at an earlier
state of the store and performed its own requests since. And the committed state is the replay of
the writes committed so far. A commit leads from one replay to the next because it publishes the
committed tables with the writes of its own transaction (`Standing.commit`).
-/

namespace RecordLayer

open Transaction (versionIn InFlight)

/-! ## Transactions of a run -/

/-- Every open transaction of a run is in flight, and there is no history of those to come. -/
structure SharedStore.Tracked (history : History) (y : SharedStore) : Prop where
  inFlight : ∀ i t, y.transactions[i]? = some t → t.isOpen = true →
    InFlight y.store (exchanges i history) t
  fresh : ∀ i, y.transactions.length ≤ i → exchanges i history = []

theorem Transaction.InFlight.perform {s : Store} {exchanged : List (Request × Answer)}
    {t : Transaction} {r : Request} (h : InFlight s exchanged t)
    (ho : (t.perform s r).2.1.isOpen = true) :
    InFlight s (exchanged ++ [(r, (t.perform s r).1)]) (t.perform s r).2.1 := by
  obtain ⟨b, hb, -, hrun⟩ := h
  have hr := Transaction.ne_commit_of_open ho
  refine ⟨b, hb, ho, ?_⟩
  rw [List.map_append, List.map_append, Transaction.performAll_append, hrun]
  simp only [List.map_cons, List.map_nil, Transaction.performAll,
    Transaction.perform_sameShape hb.toSameShape t hr]

namespace SharedStore

/-- **What an operation does to the store:** nothing, or it commits a transaction that is in flight,
and what that one wrote is the next to be counted as committed. -/
theorem Tracked.store_cases {history : History} {y y' : SharedStore} {op : Operation} {a : Answer}
    (h : Tracked history y) (hp : y.perform op = some (a, y')) :
    (y'.store = y.store ∧ committedWrites ((op, a) :: history) = committedWrites history) ∨
      ∃ exchanged t t', InFlight y.store exchanged t ∧ t.commit y.store = (.ok y'.store, t') ∧
        committedWrites ((op, a) :: history) =
          committedWrites history ++ [writesOf exchanged] := by
  cases op with
  | begin =>
    obtain ⟨rfl, rfl⟩ := begin_eq_some hp
    exact .inl ⟨rfl, rfl⟩
  | insert recordType records =>
    -- an insertion runs a transaction of its own and commits it, or is refused
    rcases (insert_eq_some hp).2 with ⟨rfl, hinsert⟩ | ⟨hstore, e, rfl, -⟩
    · obtain ⟨t, t', hflight, hc⟩ := Transaction.insertAll_eq_ok hinsert
      refine .inr ⟨_, t, t', hflight, hc, ?_⟩
      rw [Transaction.writesOf_saves]
      rfl
    · exact .inl ⟨hstore, rfl⟩
  | request i r =>
    obtain ⟨t, hi, rfl, rfl⟩ := request_eq_some hp
    by_cases hr : r = .commit
    · subst hr
      cases hc : t.commit y.store with
      | mk outcome t' =>
        cases outcome with
        | error e =>
          have hfails : t.perform y.store .commit = (.failed e, t', y.store) := by
            simp only [Transaction.perform, hc]
          rw [hfails]
          exact .inl ⟨rfl, rfl⟩
        | ok s =>
          simp only [Transaction.perform, hc]
          -- the transaction that commits was open, and so it was in flight
          have hflight := h.inFlight i t hi (Transaction.commit_eq_ok hc).1
          exact .inr ⟨_, t, t', hflight, hc, rfl⟩
    · refine .inl ⟨Transaction.perform_store y.store t hr, ?_⟩
      cases r with
      | commit => exact absurd rfl hr
      | _ => rfl

/-- An operation leads to a later state of the store. -/
theorem Tracked.later {history : History} {y y' : SharedStore} {op : Operation} {a : Answer}
    (h : Tracked history y) (hp : y.perform op = some (a, y')) : y.store.Later y'.store := by
  rcases h.store_cases hp with ⟨hstore, -⟩ | ⟨exchanged, t, t', hflight, hc, -⟩
  · rw [hstore]
    exact .refl _
  · exact hflight.standing.commit_later hc

theorem Tracked.perform {history : History} {y y' : SharedStore} {op : Operation} {a : Answer}
    (h : Tracked history y) (hp : y.perform op = some (a, y')) :
    Tracked ((op, a) :: history) y' := by
  -- whatever the operation does to the store, open transactions that it leaves alone stay in flight
  have hlater := h.later hp
  cases op with
  | begin =>
    obtain ⟨-, rfl⟩ := begin_eq_some hp
    refine ⟨fun i t ht ho => ?_, fun i hi => ?_⟩
    · simp only [exchanges]
      rw [List.getElem?_append] at ht
      split at ht
      · exact h.inFlight i t ht ho
      · rename_i hi
        -- the new transaction has no history yet
        rw [h.fresh i (by omega)]
        cases hk : i - y.transactions.length with
        | zero =>
          simp only [hk, List.getElem?_cons_zero, Option.some.injEq] at ht
          subst ht
          exact Transaction.inFlight_begin y.store
        | succ k => simp [hk] at ht
    · simp only [exchanges]
      exact h.fresh i (by simp at hi; omega)
  | insert recordType records =>
    -- an insertion moves the store on and touches no transaction
    have ht := (insert_eq_some hp).1
    refine ⟨fun i t hit ho => ?_, fun i hi => ?_⟩
    · simp only [exchanges]
      exact (h.inFlight i t (ht ▸ hit) ho).later hlater
    · simp only [exchanges]
      exact h.fresh i (ht ▸ hi)
  | request j r =>
    obtain ⟨t, hj, rfl, rfl⟩ := request_eq_some hp
    -- a request adds to the history of its own transaction and to no other
    have hlt : j < y.transactions.length := (List.getElem?_eq_some_iff.mp hj).1
    refine ⟨fun i t' hit ho => ?_, fun i hi => ?_⟩
    · simp only [exchanges]
      by_cases hij : j = i
      · subst hij
        rw [if_pos rfl]
        simp only [List.getElem?_set_self hlt, Option.some.injEq] at hit
        subst hit
        -- the transaction is still open, so it was open before and the request was no commit
        have hflight := h.inFlight j t hj (Transaction.isOpen_of_perform ho)
        exact (hflight.perform ho).later hlater
      · rw [if_neg hij]
        simp only [List.getElem?_set_ne hij] at hit
        exact (h.inFlight i t' hit ho).later hlater
    · simp only [exchanges]
      simp only [List.length_set] at hi
      rw [if_neg (by omega)]
      exact h.fresh i hi

/-- **Every open transaction of a run is in flight.** -/
theorem run_tracked {start : Store} : ∀ {ops : List Operation} {history : History}
    {y : SharedStore}, run start ops = some (history, y) → Tracked history y
  | [], history, y, h => by
    cases h
    exact ⟨by simp, fun _ _ => rfl⟩
  | op :: earlier, history, y, h => by
    obtain ⟨history₀, y₀, a, hr, hp, rfl⟩ := run_cons_eq_some h
    exact (run_tracked hr).perform hp

/-! ## The committed state of a run -/

/-- The committed state is the replay of the committed writes, and versions count commits. -/
structure Replayed (start : Store) (history : History) (y : SharedStore) : Prop where
  shape : start.SameShape y.store
  contents : ∀ name, (y.store.committed.lookup? name).map Table.contents =
    ((replay start (committedWrites history).flatten).lookup? name).map Table.contents
  version : ∀ name, versionIn y.store.committed name =
    ((committedWrites history).filter (·.any (·.recordType = name))).length

/-- A commit of writes leads from one replay to the next. -/
theorem Replayed.commit {start : Store} {history history' : History} {y y' : SharedStore}
    {exchanged : List (Request × Answer)} {t t' : Transaction} (h : Replayed start history y)
    (hflight : InFlight y.store exchanged t) (hc : t.commit y.store = (.ok y'.store, t'))
    (hw : committedWrites history' = committedWrites history ++ [writesOf exchanged]) :
    Replayed start history' y' := by
  have hs := hflight.standing
  have hlater := hs.commit_later hc
  refine ⟨⟨h.shape.catalog.trans hlater.catalog, h.shape.heights.trans hlater.heights⟩, ?_, ?_⟩
  · -- the contents: what the transaction wrote is replayed behind all commits before it
    intro name
    rw [(hs.commit hc name).1, hw, List.flatten_append, replay, List.foldl_append,
      Write.lookup?_foldl_apply]
    simp only [List.flatten_cons, List.flatten_nil, List.append_nil]
    rw [h.shape.foldl_applyTo]
    exact Write.foldl_applyTo_contents _ (h.contents name)
  · -- the versions: a commit counts for a table exactly if one of its writes is to the table
    intro name
    rw [(hs.commit hc name).2, h.version name, hw, List.filter_append, List.length_append]
    congr 1
    by_cases hm : name ∈ t.written
    · obtain ⟨w, hwm, hwn⟩ := (hs.mem_written name).mp hm
      rw [if_pos hm, List.filter_cons_of_pos (by simpa using ⟨w, hwm, hwn⟩)]
      rfl
    · rw [if_neg hm, List.filter_cons_of_neg]
      · rfl
      · simp only [List.any_eq_true, decide_eq_true_eq, not_exists, not_and]
        exact fun w hwm hwn => hm ((hs.mem_written name).mpr ⟨w, hwm, hwn⟩)

/-- An operation that commits nothing keeps a replay. -/
theorem Replayed.unchanged {start : Store} {history history' : History} {y y' : SharedStore}
    (h : Replayed start history y) (hs : y'.store = y.store)
    (hw : committedWrites history' = committedWrites history) : Replayed start history' y' where
  shape := hs ▸ h.shape
  contents name := by rw [hs, hw]; exact h.contents name
  version name := by rw [hs, hw]; exact h.version name

theorem Replayed.perform {start : Store} {history : History} {y y' : SharedStore}
    {op : Operation} {a : Answer} (h : Replayed start history y) (htracked : Tracked history y)
    (hp : y.perform op = some (a, y')) : Replayed start ((op, a) :: history) y' := by
  rcases htracked.store_cases hp with ⟨hstore, hw⟩ | ⟨exchanged, t, t', hflight, hc, hw⟩
  · exact h.unchanged hstore hw
  · exact h.commit hflight hc hw

/-- The committed state of a run is the replay of its committed writes. -/
theorem run_replayed {start : Store} (hstart : start.committed = []) :
    ∀ {ops : List Operation} {history : History} {y : SharedStore},
      run start ops = some (history, y) → Replayed start history y
  | [], history, y, h => by
    cases h
    refine ⟨⟨rfl, rfl⟩, fun name => ?_, fun name => ?_⟩
    · rw [hstart]
      rfl
    · simp only [versionIn, hstart]
      rfl
  | op :: earlier, history, y, h => by
    obtain ⟨history₀, y₀, a, hr, hp, rfl⟩ := run_cons_eq_some h
    exact (run_replayed hstart hr).perform (run_tracked hr) hp

theorem length_committedWrites_le (history : History) :
    (committedWrites history).length ≤ history.length := by
  induction history using committedWrites.induct with
  | case1 => exact Nat.le_refl 0
  | case2 | case3 =>
    rw [committedWrites, List.length_append, List.length_cons]
    exact Nat.succ_le_succ ‹_›
  | case4 entry history hrequest hinsert ih =>
    rw [committedWrites.eq_4 _ _ hrequest hinsert]
    exact Nat.le_succ_of_le ih

theorem length_history {start : Store} : ∀ {ops : List Operation} {history : History}
    {y : SharedStore}, run start ops = some (history, y) → history.length = ops.length
  | [], _, _, h => by
    cases h
    rfl
  | op :: earlier, _, _, h => by
    obtain ⟨history₀, y₀, a, hr, -, rfl⟩ := run_cons_eq_some h
    exact congrArg (· + 1) (length_history hr)

/-- **A version is at most the number of operations,** so a word holds it for as long as a word can
count them. -/
theorem version_le_length {start : Store} (hstart : start.committed = []) {ops : List Operation}
    {history : History} {y : SharedStore} (h : run start ops = some (history, y)) (name : String) :
    versionIn y.store.committed name ≤ ops.length := by
  rw [(run_replayed hstart h).version name, ← length_history h]
  exact Nat.le_trans (List.length_filter_le _ _) (length_committedWrites_le history)

/-- **No update is lost.** After any run over an empty store, the records and the index data of
every table are those of replaying the writes of the transactions that committed, in the order of
their commits; and the version of a table counts the commits that wrote it. -/
theorem committed_eq_replay {catalog : Catalog} {heights : String → RankedSet.Heights}
    {ops : List Operation} {history : History} {y : SharedStore}
    (h : run { catalog, heights } ops = some (history, y)) (name : String) :
    (y.store.committed.lookup? name).map (fun table => (table.records, table.indexes)) =
        ((replay { catalog, heights } (committedWrites history).flatten).lookup? name).map
          (fun table => (table.records, table.indexes)) ∧
      versionIn y.store.committed name =
        ((committedWrites history).filter (·.any (·.recordType = name))).length :=
  let hr := run_replayed rfl h
  ⟨hr.contents name, hr.version name⟩

end SharedStore

/-! ## Two transactions over the same table -/

namespace Sample

/-- Things with a size. -/
def items : RecordType where
  name := "items"
  fields := [⟨"id", .int, true⟩, ⟨"size", .int, false⟩]
  primaryKey := "id"
  names_nodup := by decide
  primaryKey_mem := by decide

/-- Things that only have a number. -/
def notes : RecordType where
  name := "notes"
  fields := [⟨"id", .int, true⟩]
  primaryKey := "id"
  names_nodup := by decide
  primaryKey_mem := by decide

/-- Items ranked by sizes that no two of them share. -/
def bySize : Index := ⟨"by_size", "items", ["size"], true, .rank, []⟩

/-- Items and notes. -/
def catalog : Catalog := ⟨[items, notes], [bySize]⟩

/-- One transaction gives the size of an item to another item, one takes a size that is free. The
first one to commit wins. -/
def race : List Operation := [
  .request 1 .commit, .request 0 .commit,
  .request 1 (.save "items" ⟨[.int 1, .int 7]⟩),
  .request 0 (.save "items" ⟨[.int 2, .int 5]⟩), .request 0 (.delete "items" (.int 1)),
  .begin, .begin, .insert "items" [⟨[.int 1, .int 5]⟩]]

end Sample

open Sample in
theorem SharedStore.committed_eq_replay_race : ∃ history y,
    run { catalog } race = some (history, y) ∧
      (y.store.committed.lookup? "items").map (fun table => (table.records, table.indexes)) =
        ((replay { catalog } (committedWrites history).flatten).lookup? "items").map
          (fun table => (table.records, table.indexes)) ∧
      versionIn y.store.committed "items" =
        ((committedWrites history).filter (·.any (·.recordType = "items"))).length := by
  have hrun : (run { catalog } race).isSome = true := by decide +kernel
  obtain ⟨⟨history, y⟩, h⟩ := Option.isSome_iff_exists.mp hrun
  exact ⟨history, y, h, committed_eq_replay h "items"⟩

end RecordLayer
