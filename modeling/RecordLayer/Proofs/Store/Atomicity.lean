import RecordLayer.Proofs.Store.Serializability

/-!
# Whatever fails leaves nothing behind

A save or a deletion that fails, a deletion that finds nothing, an insertion that is refused at any
of its records, and a commit of a closed transaction come to nothing: the run in which they are not
asked for has the same answers and ends in the same state.

A commit that fails for a conflict, and a cancellation, come to something, since they close their
transaction. But that is all: the committed state is what it was, and from there on the transaction
answers that it is closed. Nor has it been noticed by anyone: a run without the requests of a
transaction that never committed has the same answers to all other operations, and the same
committed state. A transaction that was closed by a commit is another matter, for what it published
stays, however often it is then committed again or cancelled.
-/

namespace RecordLayer

open Transaction (save_closed save_eq_error perform_performed)

/-! ## Operations that come to nothing -/

/-- Whether a request that is answered so came to nothing. -/
def Request.fruitless : Request → Answer → Bool
  | .save _ _, .failed _ => true
  | .delete _ _, .failed _ => true
  | .delete _ _, .deleted found => !found
  | .commit, .failed e => e = .transactionClosed
  | _, _ => false

namespace Operation

/-- Whether an operation that is answered so came to nothing. -/
def fruitless : Operation → Answer → Bool
  | .request _ r, a => r.fruitless a
  | .insert _ _, .failed _ => true
  | _, _ => false

/-- Whether an operation that is answered so published what was written. -/
def publishes : Operation → Answer → Bool
  | .request _ .commit, .done => true
  | .insert _ _, .done => true
  | _, _ => false

/-- Whether the operation is a request to the transaction of a number. -/
def isTo (i : Nat) : Operation → Bool
  | .request j _ => j = i
  | _ => false

theorem eq_request_of_isTo {i : Nat} {op : Operation} (h : op.isTo i = true) :
    ∃ r, op = .request i r := by
  cases op with
  | request j r =>
    obtain rfl : j = i := by simpa [isTo] using h
    exact ⟨r, rfl⟩
  | _ => cases h

/-- A request publishes by a commit that is done. -/
theorem eq_of_publishes {i : Nat} {r : Request} {a : Answer}
    (h : publishes (.request i r) a = true) : r = .commit ∧ a = .done := by
  unfold publishes at h
  split at h
  · next heq => exact ⟨(Operation.request.inj heq).2, rfl⟩
  · next heq => cases heq
  · cases h

/-- A transaction is given up: it is cancelled, or its commit fails. -/
def GivesUp (i : Nat) (op : Operation) (a : Answer) : Prop :=
  op = .request i .cancel ∨ op = .request i .commit ∧ ∃ e, a = .failed e

end Operation

/-- The history of what others than the transaction of a number did. -/
def othersThan (i : Nat) (history : History) : History :=
  history.filter fun p => !p.1.isTo i

/-- Nothing is read through an ended transaction. -/
theorem Question.run_closed {v : StoreView} (ho : v.isOpen = false) (hf : v.fault = fun _ _ => none)
    (q : Question) : ((q.run v).run).1 = .error .transactionClosed := by
  obtain ⟨catalog, tables, isOpen, fault, hidden⟩ := v
  obtain rfl : isOpen = false := ho
  obtain rfl : fault = fun _ _ => none := hf
  cases q <;> rfl

namespace Transaction

variable {s : Store} {t t' : Transaction}

theorem commit_eq_error {e : StoreError} (h : t.commit s = (.error e, t')) :
    t.isOpen = false ∧ e = .transactionClosed ∧ t' = t ∨ ∃ name, e = .conflict name := by
  unfold commit at h
  cases ho : t.isOpen with
  | false =>
    obtain ⟨he, rfl⟩ := by simpa [ho] using h
    exact Or.inl ⟨rfl, he.symm, rfl⟩
  | true =>
    simp only [ho, Bool.not_true, Bool.false_eq_true, if_false] at h
    split at h
    · cases h
    · split at h
      · next name _ => exact Or.inr ⟨name, (Except.error.inj (Prod.mk.inj h).1).symm⟩
      · cases h

/-- **A fruitless request leaves its transaction as it was,** and the store too. -/
theorem perform_fruitless {r : Request} (h : r.fruitless (t.perform s r).1 = true) :
    (t.perform s r).2 = (t, s) := by
  cases r with
  | read q => simp [Request.fruitless] at h
  | save recordType r =>
    rw [perform] at h ⊢
    rcases hs : t.save s recordType r with ⟨e | u, t'⟩ <;> rw [hs] at h
    · rw [save_eq_error hs]
    · cases h
  | delete recordType primaryKey =>
    rw [perform] at h ⊢
    cases hd : t.delete s recordType primaryKey with
    | error e => rfl
    | ok p =>
      obtain ⟨found, t'⟩ := p
      rw [hd] at h
      cases found with
      | true => cases h
      | false =>
        obtain rfl : t' = t := by simpa using (delete_eq_ok hd).2
        rfl
  | commit =>
    rw [perform] at h ⊢
    rcases hc : t.commit s with ⟨e | s', t'⟩ <;> rw [hc] at h
    -- a conflict is not fruitless, since it closes the transaction
    · rcases commit_eq_error hc with ⟨-, -, rfl⟩ | ⟨name, rfl⟩
      · rfl
      · cases h
    · cases h
  | cancel => cases h

/-- A closed transaction says so, whatever it is asked. -/
theorem perform_closed (ho : t.isOpen = false) (s : Store) {r : Request} (hr : r ≠ .cancel) :
    (t.perform s r).1 = .failed .transactionClosed := by
  cases r with
  | read q =>
    rw [perform_read, Question.run_closed (v := t.view s.catalog) ho rfl]
    rfl
  | save recordType r => rw [perform, save_closed ho]
  | delete recordType primaryKey =>
    rw [perform, delete, ho]
    rfl
  | commit =>
    rw [perform, commit, ho]
    rfl
  | cancel => exact absurd rfl hr

end Transaction

namespace SharedStore

variable {start : Store} {y y' y₁ : SharedStore} {op : Operation} {a : Answer} {i : Nat}

/-! ## One operation -/

/-- **A fruitless operation leaves everything as it was.** -/
theorem perform_fruitless (h : y.perform op = some (a, y')) (hf : op.fruitless a = true) :
    y' = y := by
  cases op with
  | begin => cases hf
  | request i r =>
    obtain ⟨t, ht, rfl, rfl⟩ := request_eq_some h
    rw [Transaction.perform_fruitless hf]
    obtain ⟨hlt, rfl⟩ := List.getElem?_eq_some_iff.1 ht
    rw [List.set_getElem_self]
  | insert recordType records =>
    obtain ⟨htransactions, hstore⟩ := insert_eq_some h
    rcases hstore with ⟨rfl, -⟩ | ⟨hstore, -⟩
    · cases hf
    · cases y
      cases y'
      simp_all

/-- **Only what publishes changes the committed state.** -/
theorem perform_store (h : y.perform op = some (a, y')) (hp : op.publishes a = false) :
    y'.store = y.store := by
  cases op with
  | begin =>
    obtain ⟨-, rfl⟩ := begin_eq_some h
    rfl
  | request i r =>
    obtain ⟨t, -, rfl, rfl⟩ := request_eq_some h
    by_cases hr : r = .commit
    · subst hr
      rw [Transaction.perform] at hp ⊢
      rcases hc : t.commit y.store with ⟨e | s', t'⟩
      · rfl
      · rw [hc] at hp
        cases hp
    · exact Transaction.perform_store y.store t hr
  | insert recordType records =>
    rcases (insert_eq_some h).2 with ⟨rfl, -⟩ | ⟨hstore, -⟩
    · cases hp
    · exact hstore

/-! ## Transactions that have ended -/

/-- The transaction of a number has ended. -/
def Ended (i : Nat) (y : SharedStore) : Prop :=
  ∃ t, y.transactions[i]? = some t ∧ t.isOpen = false

/-- A commit ends its transaction, whatever comes of it, and so does a cancellation. -/
theorem ended_of_ends {r : Request} (h : y.perform (.request i r) = some (a, y'))
    (hr : r = .commit ∨ r = .cancel) : y'.Ended i := by
  obtain ⟨t, ht, -, rfl⟩ := request_eq_some h
  have hlt : i < y.transactions.length := (List.getElem?_eq_some_iff.1 ht).1
  exact ⟨_, List.getElem?_set_self hlt, (perform_performed y.store t r).ends hr⟩

/-- What has ended stays so, and answers every request but a cancellation by saying so. -/
theorem Ended.perform (h : y.Ended i) (hp : y.perform op = some (a, y')) :
    y'.Ended i ∧ ∀ r, op = .request i r → r = .cancel ∨ a = .failed .transactionClosed := by
  obtain ⟨t, ht, hclosed⟩ := h
  cases op with
  | begin =>
    obtain ⟨-, rfl⟩ := begin_eq_some hp
    have hlt : i < y.transactions.length := (List.getElem?_eq_some_iff.1 ht).1
    exact ⟨⟨t, by rw [List.getElem?_append_left hlt, ht], hclosed⟩, fun r h => by cases h⟩
  | request j r =>
    obtain ⟨u, hu, rfl, rfl⟩ := request_eq_some hp
    -- the request is one of the transaction itself, or of another one
    by_cases hij : j = i
    · subst hij
      obtain rfl : t = u := Option.some.inj (ht.symm.trans hu)
      have hlt : j < y.transactions.length := (List.getElem?_eq_some_iff.1 ht).1
      refine ⟨⟨_, List.getElem?_set_self hlt, ((perform_performed y.store t r).closed hclosed).2⟩,
        fun r' hr' => ?_⟩
      obtain rfl : r = r' := (Operation.request.inj hr').2
      by_cases hr : r = .cancel
      · exact Or.inl hr
      · exact Or.inr (Transaction.perform_closed hclosed y.store hr)
    · refine ⟨⟨t, by rw [List.getElem?_set_ne hij, ht], hclosed⟩, fun r' hr' => ?_⟩
      exact absurd (Operation.request.inj hr').1 hij
  | insert recordType records =>
    exact ⟨⟨t, by rw [(insert_eq_some hp).1, ht], hclosed⟩, fun r h => by cases h⟩

/-! ## Shared stores but for one transaction -/

/-- Two shared stores that differ in the transaction of a number at most. -/
structure AlikeBut (i : Nat) (y y' : SharedStore) : Prop where
  store : y'.store = y.store
  length : y'.transactions.length = y.transactions.length
  transactions : ∀ j, j ≠ i → y'.transactions[j]? = y.transactions[j]?

/-- A request to the one transaction that publishes nothing is not noticed. -/
theorem AlikeBut.unnoticed {r : Request} (h : AlikeBut i y y')
    (hp : y.perform (.request i r) = some (a, y₁))
    (hnot : Operation.publishes (.request i r) a = false) : AlikeBut i y₁ y' := by
  have hstore := SharedStore.perform_store hp hnot
  obtain ⟨t, ht, -, rfl⟩ := request_eq_some hp
  refine ⟨h.store.trans hstore.symm, by simpa using h.length, fun j hj => ?_⟩
  rw [h.transactions j hj, List.getElem?_set_ne (Ne.symm hj)]

/-- Every other operation is answered alike. -/
theorem AlikeBut.perform (h : AlikeBut i y y') (hop : op.isTo i = false)
    (hp : y.perform op = some (a, y₁)) :
    ∃ y₁', y'.perform op = some (a, y₁') ∧ AlikeBut i y₁ y₁' := by
  obtain ⟨store, transactions⟩ := y
  obtain ⟨store', transactions'⟩ := y'
  obtain ⟨rfl, hlength, htransactions⟩ := h
  dsimp only at hlength htransactions
  cases op with
  | begin =>
    obtain ⟨rfl, rfl⟩ := begin_eq_some hp
    refine ⟨_, rfl, rfl, by simp [hlength], fun j hj => ?_⟩
    dsimp only
    rw [List.getElem?_append, List.getElem?_append, hlength, htransactions j hj]
  | request j r =>
    have hj : j ≠ i := by simpa [Operation.isTo] using hop
    obtain ⟨t, ht, rfl, rfl⟩ := request_eq_some hp
    dsimp only at ht
    refine ⟨⟨(t.perform store' r).2.2, transactions'.set j (t.perform store' r).2.1⟩, ?_, rfl,
      by simpa using hlength, fun k hk => ?_⟩
    · simp only [SharedStore.perform, htransactions j hj, ht]
    · dsimp only
      rw [List.getElem?_set, List.getElem?_set, hlength, htransactions k hk]
  | insert recordType records =>
    simp only [SharedStore.perform] at hp ⊢
    cases hi : store'.insertAll recordType records <;>
      simp only [hi, Option.some.injEq, Prod.mk.injEq] at hp <;> obtain ⟨rfl, rfl⟩ := hp <;>
      exact ⟨_, rfl, rfl, hlength, htransactions⟩

/-! ## Runs -/

/-- A history names the operations that led to it. -/
theorem map_fst_of_run : ∀ {ops : List Operation} {history : History} {y : SharedStore},
    run start ops = some (history, y) → history.map (·.1) = ops
  | [], history, y, h => by
    cases h
    rfl
  | op :: earlier, history, y, h => by
    obtain ⟨history₀, y₀, a, hrun, -, rfl⟩ := run_cons_eq_some h
    rw [List.map_cons, map_fst_of_run hrun]

/-- The run of a history, taken back by its latest operation. -/
theorem run_of_cons {ops : List Operation} {history : History}
    (h : run start ops = some ((op, a) :: history, y)) :
    ∃ y₀, run start (history.map (·.1)) = some (history, y₀) ∧ y₀.perform op = some (a, y) := by
  cases ops with
  | nil => cases h
  | cons op' earlier =>
    obtain ⟨history₀, y₀, a', hrun, hp, heq⟩ := run_cons_eq_some h
    obtain ⟨hpair, rfl⟩ := List.cons.inj heq
    obtain ⟨rfl, rfl⟩ := Prod.mk.inj hpair
    exact ⟨y₀, by rw [map_fst_of_run hrun]; exact hrun, hp⟩

theorem run_cons {ops : List Operation} {history : History}
    (hrun : run start ops = some (history, y)) (hp : y.perform op = some (a, y')) :
    run start (op :: ops) = some ((op, a) :: history, y') := by
  rw [run, hrun]
  simp [hp]

/-- The state in the midst of a run. -/
theorem exists_run_before {before : History} : ∀ {after : History} {ops : List Operation}
    {y : SharedStore}, run start ops = some (after ++ (op, a) :: before, y) →
    ∃ y₀ y₁, run start (before.map (·.1)) = some (before, y₀) ∧ y₀.perform op = some (a, y₁)
  | [], ops, y, h => by
    obtain ⟨y₀, hrun, hp⟩ := run_of_cons h
    exact ⟨y₀, y, hrun, hp⟩
  | (op', a') :: after, ops, y, h => by
    obtain ⟨y₀, hrun, -⟩ := run_of_cons h
    exact exists_run_before hrun

/-- **A fruitless operation can be left out of a run.** -/
theorem run_leave_out {before : History} (hf : op.fruitless a = true) : ∀ {after : History}
    {ops : List Operation} {y : SharedStore},
    run start ops = some (after ++ (op, a) :: before, y) →
    run start ((after ++ before).map (·.1)) = some (after ++ before, y)
  | [], ops, y, h => by
    obtain ⟨y₀, hrun, hp⟩ := run_of_cons h
    rw [perform_fruitless hp hf]
    exact hrun
  | (op', a') :: after, ops, y, h => by
    obtain ⟨y₀, hrun, hp⟩ := run_of_cons h
    exact run_cons (run_leave_out hf hrun) hp

/-- After its commit or cancellation a transaction has ended, and says so for the
rest of the run. -/
theorem ended_after {before : History} {r : Request} (hr : r = .commit ∨ r = .cancel) :
    ∀ {after : History} {ops : List Operation} {y : SharedStore},
      run start ops = some (after ++ (.request i r, a) :: before, y) →
      y.Ended i ∧ ∀ r' b, (.request i r', b) ∈ after → r' = .cancel ∨ b = .failed .transactionClosed
  | [], ops, y, h => by
    obtain ⟨y₀, -, hp⟩ := run_of_cons h
    exact ⟨ended_of_ends hp hr, fun _ _ hmem => absurd hmem List.not_mem_nil⟩
  | (op', a') :: after, ops, y, h => by
    obtain ⟨y₀, hrun, hp⟩ := run_of_cons h
    obtain ⟨hended, hafter⟩ := ended_after hr hrun
    obtain ⟨hended', hnow⟩ := hended.perform hp
    refine ⟨hended', fun r' b hmem => ?_⟩
    rcases List.mem_cons.1 hmem with heq | hmem
    · obtain ⟨rfl, rfl⟩ := Prod.mk.inj heq
      exact hnow r' rfl
    · exact hafter r' b hmem

/-- **A transaction that does not commit is not noticed.** -/
theorem run_without (i : Nat) : ∀ {history : History} {ops : List Operation} {y : SharedStore},
    run start ops = some (history, y) → (.request i .commit, .done) ∉ history →
    ∃ y', run start ((othersThan i history).map (·.1)) = some (othersThan i history, y') ∧
      AlikeBut i y y'
  | [], ops, y, h, _ => by
    rw [← map_fst_of_run h] at h
    exact ⟨y, h, rfl, rfl, fun _ _ => rfl⟩
  | (op, a) :: history, ops, y, h, hnot => by
    obtain ⟨y₀, hrun, hp⟩ := run_of_cons h
    rw [List.mem_cons, not_or] at hnot
    obtain ⟨y', hrun', halike⟩ := run_without i hrun hnot.2
    cases hop : op.isTo i with
    | true =>
      -- the run without the transaction stays where it is, and nothing was published
      have hothers : othersThan i ((op, a) :: history) = othersThan i history := by
        rw [othersThan, List.filter_cons_of_neg (by simp [hop]), othersThan]
      obtain ⟨r, rfl⟩ := Operation.eq_request_of_isTo hop
      have hsilent : Operation.publishes (.request i r) a = false :=
        Bool.eq_false_iff.2 fun hpublishes => hnot.1 (by
          obtain ⟨rfl, rfl⟩ := Operation.eq_of_publishes hpublishes
          rfl)
      rw [hothers]
      exact ⟨y', hrun', halike.unnoticed hp hsilent⟩
    | false =>
      have hothers : othersThan i ((op, a) :: history) = (op, a) :: othersThan i history := by
        rw [othersThan, List.filter_cons_of_pos (by simp [hop]), othersThan]
      obtain ⟨y₁', hp', halike'⟩ := halike.perform hop hp
      rw [hothers]
      exact ⟨y₁', run_cons hrun' hp', halike'⟩

/-- A transaction that is given up, and that did not commit before, never commits. -/
theorem no_commit_of_givesUp {before after : History} {ops : List Operation}
    (h : run start ops = some (after ++ (op, a) :: before, y)) (hgives : op.GivesUp i a)
    (hbefore : (.request i .commit, .done) ∉ before) :
    (.request i .commit, .done) ∉ after ++ (op, a) :: before := by
  obtain ⟨r, hr, rfl⟩ : ∃ r : Request, (r = .commit ∨ r = .cancel) ∧ op = .request i r := by
    rcases hgives with rfl | ⟨rfl, -⟩
    · exact ⟨_, Or.inr rfl, rfl⟩
    · exact ⟨_, Or.inl rfl, rfl⟩
  intro hmem
  rcases List.mem_append.1 hmem with hmem | hmem
  · rcases (ended_after hr h).2 _ _ hmem with heq | heq <;> cases heq
  rcases List.mem_cons.1 hmem with heq | hmem
  · obtain ⟨hop, rfl⟩ := Prod.mk.inj heq
    rcases hgives with hgives | ⟨-, e, he⟩
    · rw [hgives] at hop
      cases hop
    · cases he
  · exact hbefore hmem

/-- A commit that fails for a conflict is the first that is asked for. -/
theorem no_commit_before_conflict {before after : History} {ops : List Operation} {name : String}
    (h : run start ops =
      some (after ++ (.request i .commit, .failed (.conflict name)) :: before, y)) :
    (.request i .commit, .done) ∉ before := by
  intro hmem
  obtain ⟨later, earlier, rfl⟩ := List.append_of_mem hmem
  rw [← List.cons_append, ← List.append_assoc] at h
  rcases (ended_after (Or.inl rfl) h).2 .commit (.failed (.conflict name)) (by simp) with
    heq | heq <;> cases heq

/-- **What fails leaves nothing behind.** Take any point of any run. If the operation there came to
nothing, the run without it has the same answers and leads to the same state. If it did not publish,
the committed state after it is that before it. And if it gave a transaction up, by a failed commit
or a cancellation, then this transaction answers nothing any more; and unless it had committed
before, which it had not if the commit met a conflict, the run without its requests has the same
answers to everything else and leads to the same committed state. -/
theorem failures_leave_nothing {ops : List Operation} {history before after : History}
    (h : run start ops = some (history, y)) (hpoint : history = after ++ (op, a) :: before) :
    (op.fruitless a = true →
      run start ((after ++ before).map (·.1)) = some (after ++ before, y)) ∧
    (op.publishes a = false → ∃ y₀ y₁, run start (before.map (·.1)) = some (before, y₀) ∧
      y₀.perform op = some (a, y₁) ∧ y₁.store = y₀.store) ∧
    ∀ i, op.GivesUp i a →
      (∀ r b, (.request i r, b) ∈ after → r = .cancel ∨ b = .failed .transactionClosed) ∧
      (∀ name, a = .failed (.conflict name) → (.request i .commit, .done) ∉ before) ∧
      ((.request i .commit, .done) ∉ before →
        ∃ y', run start ((othersThan i history).map (·.1)) = some (othersThan i history, y') ∧
          y'.store = y.store) := by
  subst hpoint
  refine ⟨fun hf => run_leave_out hf h, fun hp => ?_, fun i hgives => ⟨?_, ?_, fun hbefore => ?_⟩⟩
  · obtain ⟨y₀, y₁, hrun, hperform⟩ := exists_run_before h
    exact ⟨y₀, y₁, hrun, hperform, perform_store hperform hp⟩
  · rcases hgives with rfl | ⟨rfl, -⟩
    · exact (ended_after (Or.inr rfl) h).2
    · exact (ended_after (Or.inl rfl) h).2
  · rintro name rfl
    rcases hgives with rfl | ⟨rfl, -⟩
    · -- a cancellation does not fail
      obtain ⟨y₀, y₁, -, hperform⟩ := exists_run_before h
      obtain ⟨t, -, ha, -⟩ := request_eq_some hperform
      cases ha
    · exact no_commit_before_conflict h
  · obtain ⟨y', hrun, halike⟩ := run_without i h (no_commit_of_givesUp h hgives hbefore)
    exact ⟨y', hrun, halike.store⟩

end SharedStore

/-! ## Failures of every kind -/

namespace Sample

/-- A save and an insertion are refused for a size that is taken, and of two transactions that save
items the second one to commit meets a conflict. -/
def mishaps : History := [
  (.request 2 (.read (.scanRecords "items" .snapshot)),
    .records [⟨[.int 1, .int 5]⟩, ⟨[.int 3, .int 6]⟩]), (.begin, .done),
  (.request 1 .commit, .failed (.conflict "items")), (.request 0 .commit, .done),
  (.insert "items" [⟨[.int 4, .int 9]⟩, ⟨[.int 5, .int 5]⟩],
    .failed (.uniqueViolation "by_size" "[Int(5)]")),
  (.request 1 (.save "items" ⟨[.int 1, .int 7]⟩), .done),
  (.request 0 (.save "items" ⟨[.int 3, .int 6]⟩), .done),
  (.request 0 (.save "items" ⟨[.int 2, .int 5]⟩),
    .failed (.uniqueViolation "by_size" "[Int(5)]")),
  (.begin, .done), (.begin, .done), (.insert "items" [⟨[.int 1, .int 5]⟩], .done)]

/-- A transaction saves an item, commits, and commits once more before another one looks. -/
def twice : History := [
  (.request 1 (.read (.scanRecords "items" .snapshot)), .records [⟨[.int 1, .int 5]⟩]),
  (.begin, .done), (.request 0 .commit, .failed .transactionClosed), (.request 0 .commit, .done),
  (.request 0 (.save "items" ⟨[.int 1, .int 5]⟩), .done), (.begin, .done)]

end Sample

namespace SharedStore

open Sample

/-- A history is that of its operations if the answers are those that they get. -/
theorem exists_run_of_answers (start : Store) (history : History)
    (h : (run start (history.map (·.1))).map (·.1.map (·.2)) = some (history.map (·.2))) :
    ∃ y, run start (history.map (·.1)) = some (history, y) := by
  obtain ⟨⟨history', y⟩, hrun, hanswers⟩ := Option.map_eq_some_iff.1 h
  obtain rfl : history' = history := by
    rw [List.zip_of_prod (map_fst_of_run hrun) hanswers, ← List.zip_of_prod rfl rfl]
  exact ⟨y, hrun⟩

theorem failures_leave_nothing_mishaps :
    ∃ y, run { catalog } (mishaps.map (·.1)) = some (mishaps, y) ∧
    run { catalog } ((mishaps.eraseIdx 7).map (·.1)) = some (mishaps.eraseIdx 7, y) ∧
    (∃ y₀ y₁, run { catalog } ((mishaps.drop 5).map (·.1)) = some (mishaps.drop 5, y₀) ∧
      y₀.perform (.insert "items" [⟨[.int 4, .int 9]⟩, ⟨[.int 5, .int 5]⟩]) =
        some (.failed (.uniqueViolation "by_size" "[Int(5)]"), y₁) ∧ y₁.store = y₀.store) ∧
    ∃ y', run { catalog } ((othersThan 1 mishaps).map (·.1)) = some (othersThan 1 mishaps, y') ∧
      y'.store = y.store := by
  obtain ⟨y, hrun⟩ := exists_run_of_answers { catalog } mishaps (by decide +kernel)
  have hsave := failures_leave_nothing hrun
    (show mishaps = mishaps.take 7 ++ (_, _) :: mishaps.drop 8 from rfl)
  have hinsert := failures_leave_nothing hrun
    (show mishaps = mishaps.take 4 ++ (_, _) :: mishaps.drop 5 from rfl)
  have hcommit := failures_leave_nothing hrun
    (show mishaps = mishaps.take 2 ++ (_, _) :: mishaps.drop 3 from rfl)
  obtain ⟨-, hfirst, hunnoticed⟩ := hcommit.2.2 1 (Or.inr ⟨rfl, _, rfl⟩)
  exact ⟨y, hrun, hsave.1 rfl, hinsert.2.1 rfl, hunnoticed (hfirst "items" rfl)⟩

/-- **A failed commit need not be the only one:** what a transaction published by its first commit
stays when a second one fails, and is seen by others. -/
theorem exists_failed_commit_noticed : ∃ y, run { catalog } (twice.map (·.1)) = some (twice, y) ∧
    (.request 0 .commit, .failed .transactionClosed) ∈ twice ∧
    ∀ y', run { catalog } ((othersThan 0 twice).map (·.1)) ≠ some (othersThan 0 twice, y') := by
  obtain ⟨y, hrun⟩ := exists_run_of_answers { catalog } twice (by decide +kernel)
  refine ⟨y, hrun, .tail _ (.tail _ (.head _)), fun y' h => ?_⟩
  have hanswers : (run { catalog } ((othersThan 0 twice).map (·.1))).map (·.1.map (·.2)) ≠
      some ((othersThan 0 twice).map (·.2)) := by decide +kernel
  rw [h] at hanswers
  exact hanswers rfl

end SharedStore

end RecordLayer
