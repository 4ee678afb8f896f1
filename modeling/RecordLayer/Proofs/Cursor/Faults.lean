import RecordLayer.Cursor.Progress
import RecordLayer.Proofs.Candidates.Orders

/-!
# Failures do not truncate

A store may fail at any read, and an execution may be cancelled before any pull. What the pulls of a
cursor give is then the beginning of what they would have given; and either it is all of that and
the cursor is exhausted, or a pull answers with the error and all later ones with the abort.

The argument is about single readings first. A reading under a schedule of faults *follows* the
same reading without faults: it comes to the same, or it fails with an error of the schedule.
Readings that follow compose, so a step of a node follows the step without faults, by recursion
over the tree, and so does a pull. A pull that fails ends the cursor, so the first fault is the
last thing that happens.
-/

namespace RecordLayer

/-! ## Readings under faults -/

namespace Reading

/-- The reading comes to the same as another one, or it fails with an error of the schedule. -/
def Follows {α : Type} (fault : FaultSchedule) (x clean : Reading α) : Prop :=
  ∀ before, (ExceptT.run x).run before = (ExceptT.run clean).run before ∨
    ∃ point trace e after, fault point trace = some e ∧
      (ExceptT.run x).run before = (.error e, after)

variable {fault : FaultSchedule}

theorem follows_refl {α : Type} (x : Reading α) : Follows fault x x := fun _ => .inl rfl

theorem follows_bind {α β : Type} {x clean : Reading α} {f g : α → Reading β}
    (hx : Follows fault x clean) (hf : ∀ a, Follows fault (f a) (g a)) :
    Follows fault (x >>= f) (clean >>= g) := by
  intro before
  rw [run_bind, run_bind]
  rcases hx before with heq | ⟨point, trace, e, after, hfault, hrun⟩
  · rw [heq]
    cases (ExceptT.run clean).run before with
    | mk result mid =>
      cases result with
      | ok a => exact hf a mid
      | error e => exact .inl rfl
  · -- the first reading fails, so the second one is not made
    rw [hrun]
    exact .inr ⟨point, trace, e, after, hfault, rfl⟩

theorem follows_then {α β : Type} (x : Reading α) {f g : α → Reading β}
    (hf : ∀ a, Follows fault (f a) (g a)) : Follows fault (x >>= f) (x >>= g) :=
  follows_bind (follows_refl x) hf

end Reading

namespace StoreView

open Reading

/-- The same state of the store, without faults. -/
def faultless (v : StoreView) : StoreView := { v with fault := fun _ _ => none }

variable (v : StoreView)

theorem run_checkFault (point : FaultPoint) (before : ReadTrace) :
    (ExceptT.run (v.checkFault point)).run before =
      match v.fault point before with
      | some e => (.error e, before)
      | none => (.ok (), before) := by
  show (ExceptT.run (match v.fault point before with
    | some e => throw e
    | none => pure () : Reading Unit)).run before = _
  cases v.fault point before <;> rfl

theorem checkFault_follows (point : FaultPoint) :
    Follows v.fault (v.checkFault point) (v.faultless.checkFault point) := by
  intro before
  rw [run_checkFault, run_checkFault]
  cases hfault : v.fault point before with
  | none => exact .inl rfl
  | some e => exact .inr ⟨point, before, e, before, hfault, rfl⟩

theorem yieldRow_follows {α : Type} (row : α) :
    Follows v.fault (v.yieldRow row) (v.faultless.yieldRow row) :=
  follows_then _ fun _ => follows_bind (v.checkFault_follows _) fun _ => follows_refl _

theorem endRows_follows : Follows v.fault v.endRows v.faultless.endRows :=
  follows_then _ fun _ => v.checkFault_follows _

theorem yieldEntry_follows (row : EntryRow) :
    Follows v.fault (v.yieldEntry row) (v.faultless.yieldEntry row) :=
  follows_bind (v.yieldRow_follows row) fun _ => follows_refl _

theorem loadRecord_follows (recordType : String) (primaryKey : Value) (consistency : Consistency) :
    Follows v.fault (v.loadRecord recordType primaryKey consistency)
      (v.faultless.loadRecord recordType primaryKey consistency) :=
  follows_bind (v.checkFault_follows _) fun _ => follows_refl _

theorem ranking_follows (index : Index) :
    Follows v.fault (v.ranking index) (v.faultless.ranking index) :=
  follows_then _ fun _ => follows_bind (v.checkFault_follows _) fun _ => follows_refl _

theorem rankOf_follows (index : Index) (value : Value) :
    Follows v.fault (v.rankOf index value) (v.faultless.rankOf index value) :=
  follows_bind (v.ranking_follows index) fun _ => follows_refl _

theorem selectRank_follows (index : Index) (rank : UInt64) :
    Follows v.fault (v.selectRank index rank) (v.faultless.selectRank index rank) :=
  follows_bind (v.ranking_follows index) fun _ => follows_refl _

theorem scanIndex_faultless (index : Index) (range : KeyRange) (consistency : Consistency) :
    v.faultless.scanIndex index range consistency = v.scanIndex index range consistency := by
  have htable : v.faultless.table? index.recordType = v.table? index.recordType := rfl
  unfold scanIndex
  simp only [entriesOf_congr htable]
  rfl

end StoreView

/-! ## Filters -/

namespace CompiledNode

open Reading

variable (v : StoreView) (r : Record)

mutual

theorem eval_follows :
    ∀ node : CompiledNode, Follows v.fault (eval v r node) (eval v.faultless r node)
  | .compare position op value => by
    rw [eval, eval]
    exact follows_refl _
  | .oneOf position values => by
    rw [eval, eval]
    exact follows_refl _
  | .rank position index op n => by
    rw [eval, eval]
    exact follows_bind (v.rankOf_follows index _) fun _ => follows_refl _
  | .not child => by
    rw [eval, eval]
    exact follows_bind (eval_follows child) fun _ => follows_refl _
  | .all children => by
    rw [eval, eval]
    exact evalAll_follows children
  | .any children => by
    rw [eval, eval]
    exact evalAny_follows children

theorem evalAll_follows : ∀ nodes : List CompiledNode,
    Follows v.fault (evalAll v r nodes) (evalAll v.faultless r nodes)
  | [] => by
    rw [evalAll, evalAll]
    exact follows_refl _
  | node :: rest => by
    rw [evalAll, evalAll]
    refine follows_bind (eval_follows node) fun accepted => ?_
    cases accepted with
    | true => exact evalAll_follows rest
    | false => exact follows_refl _

theorem evalAny_follows : ∀ nodes : List CompiledNode,
    Follows v.fault (evalAny v r nodes) (evalAny v.faultless r nodes)
  | [] => by
    rw [evalAny, evalAny]
    exact follows_refl _
  | node :: rest => by
    rw [evalAny, evalAny]
    refine follows_bind (eval_follows node) fun accepted => ?_
    cases accepted with
    | true => exact follows_refl _
    | false => exact evalAny_follows rest

end

end CompiledNode

open Reading in
theorem CompiledFilter.allAccept_follows (v : StoreView) (r : Record)
    (tests : List CompiledFilter) :
    Follows v.fault (allAccept v r tests) (allAccept v.faultless r tests) := by
  induction tests with
  | nil => exact follows_refl _
  | cons f rest ih =>
    rw [allAccept, allAccept]
    refine follows_bind (CompiledNode.eval_follows v r f.root) fun accepted => ?_
    cases accepted with
    | true => exact ih
    | false => exact follows_refl _

/-! ## Nodes -/

namespace CursorNode

open Reading

variable (v : StoreView)

theorem resolve_follows (index : Index) (bounds : ScanBounds) :
    Follows v.fault (resolve v index bounds) (resolve v.faultless index bounds) := by
  cases bounds with
  | keys range => exact follows_refl _
  | ranks start stop =>
    unfold resolve
    dsimp only
    split
    · exact follows_refl _
    · -- the upper end is looked for in the same way, wherever the lower end comes from
      split
      rotate_left
      refine follows_bind (v.selectRank_follows index _) fun _ => ?_
      all_goals
        refine follows_then _ fun lower => ?_
        cases lower with
        | none => exact follows_refl _
        | some lower =>
          cases stop with
          | none => exact follows_refl _
          | some stop => exact follows_bind (v.selectRank_follows index _) fun _ => follows_refl _

theorem openScan_follows (index : Index) (bounds : ScanBounds) (consistency : Consistency) :
    Follows v.fault (openScan v index bounds consistency)
      (openScan v.faultless index bounds consistency) := by
  unfold openScan
  simp only [StoreView.scanIndex_faultless]
  exact follows_bind (resolve_follows v index bounds) fun _ => follows_refl _

theorem stepRecords_follows (recordType : String) (consistency : Consistency) (rows : List Record) :
    Follows v.fault (stepRecords v recordType consistency rows)
      (stepRecords v.faultless recordType consistency rows) := by
  cases rows with
  | nil => exact follows_bind v.endRows_follows fun _ => follows_refl _
  | cons r rest => exact follows_bind (v.yieldRow_follows r) fun _ => follows_refl _

theorem stepEntries_follows (index : Index) (bounds : ScanBounds) (covering : Bool)
    (consistency : Consistency) (rows : List StoreView.EntryRow) :
    Follows v.fault (stepEntries v index bounds covering consistency rows)
      (stepEntries v.faultless index bounds covering consistency rows) := by
  cases rows with
  | nil => exact follows_bind v.endRows_follows fun _ => follows_refl _
  | cons row rest =>
    refine follows_bind (v.yieldEntry_follows row) fun e => ?_
    dsimp only
    split
    · exact follows_refl _
    · exact follows_bind (v.loadRecord_follows _ _ _) fun _ => follows_refl _

mutual

/-- **A step under faults follows the step without faults.** -/
theorem step_follows : ∀ node : CursorNode, Follows v.fault (node.step v) (node.step v.faultless)
  | .fullScan recordType consistency rows => by
    unfold step
    cases rows with
    | none => exact follows_then _ fun rows => stepRecords_follows v recordType consistency rows
    | some rows => exact stepRecords_follows v recordType consistency rows
  | .indexScan index bounds covering consistency rows => by
    unfold step
    cases rows with
    | none =>
      -- opening a scan may be where the fault strikes; if it is not, the entries are
      refine follows_bind (openScan_follows v index bounds consistency) fun opened => ?_
      cases opened with
      | none => exact follows_refl _
      | some rows => exact stepEntries_follows v index bounds covering consistency rows
    | some rows => exact stepEntries_follows v index bounds covering consistency rows
  | .chain children dedup => by
    unfold step
    exact follows_bind (stepHead_follows children) fun _ => follows_refl _
  | .merge children key dedup heads waiting held => by
    unfold step
    cases waiting with
    | cons i rest => exact follows_bind (stepAt_follows i children) fun _ => follows_refl _
    | nil => exact follows_refl _
  | .join children key heads => by
    unfold step
    split
    · rename_i i hi
      exact follows_bind (stepAt_follows i children) fun _ => follows_refl _
    · exact follows_refl _
  | .inJoin index values batchSize consistency next batch => by
    unfold step
    exact follows_bind (stepHead_follows batch) fun _ => follows_refl _
  | .filter child tests => by
    unfold step
    -- a filter reads ranks for the record that it tests, so a fault can strike there as well
    refine follows_bind (step_follows child) fun p => ?_
    cases p with
    | done => exact follows_refl _
    | busy next => exact follows_refl _
    | emit r next =>
      exact follows_bind (CompiledFilter.allAccept_follows v r tests) fun _ => follows_refl _
  | .limit child remaining => by
    unfold step
    split
    · exact follows_refl _
    · exact follows_bind (step_follows child) fun _ => follows_refl _

theorem stepHead_follows : ∀ nodes : List CursorNode,
    Follows v.fault (stepHead v nodes) (stepHead v.faultless nodes)
  | [] => by
    unfold stepHead
    exact follows_refl _
  | node :: rest => by
    unfold stepHead
    exact follows_bind (step_follows node) fun _ => follows_refl _

theorem stepAt_follows : ∀ (i : Nat) (nodes : List CursorNode),
    Follows v.fault (stepAt v i nodes) (stepAt v.faultless i nodes)
  | _, [] => by
    unfold stepAt
    exact follows_refl _
  | 0, node :: rest => by
    unfold stepAt
    exact follows_bind (step_follows node) fun _ => follows_refl _
  | i + 1, node :: rest => by
    unfold stepAt
    exact follows_bind (stepAt_follows i rest) fun _ => follows_refl _

end

mutual

/-- The work of a node does not depend on faults. -/
theorem work_faultless : ∀ node : CursorNode, node.work v.faultless = node.work v
  | .fullScan recordType _ none => by
    rw [work, work]
    rfl
  | .fullScan _ _ (some rows) => by rw [work, work]
  | .indexScan index _ _ _ none => by
    rw [work, work]
    rfl
  | .indexScan _ _ _ _ (some rows) => by rw [work, work]
  | .chain children _ => by rw [work, work, workOfList_faultless children]
  | .merge children _ _ heads waiting held => by rw [work, work, workOfList_faultless children]
  | .join children _ heads => by rw [work, work, workOfList_faultless children]
  | .inJoin index values _ _ next batch => by
    rw [work, work, workOfList_faultless batch]
    rfl
  | .filter child _ => by rw [work, work, work_faultless child]
  | .limit child _ => by rw [work, work, work_faultless child]

theorem workOfList_faultless : ∀ nodes : List CursorNode,
    workOfList v.faultless nodes = workOfList v nodes
  | [] => by rw [workOfList, workOfList]
  | node :: rest => by
    rw [workOfList, workOfList, work_faultless node, workOfList_faultless rest]

end

theorem pullWithin_follows (fuel : Nat) (node : CursorNode) :
    Follows v.fault (pullWithin v fuel node) (pullWithin v.faultless fuel node) := by
  induction fuel generalizing node with
  | zero => exact follows_refl _
  | succ fuel ih =>
    refine follows_bind (step_follows v node) fun p => ?_
    cases p with
    | busy next => exact ih next
    | emit r next => exact follows_refl _
    | done => exact follows_refl _

/-- **A pull under faults follows the pull without faults.** -/
theorem pull_follows (node : CursorNode) :
    Follows v.fault (node.pull v) (node.pull v.faultless) := by
  unfold pull
  rw [work_faultless]
  exact pullWithin_follows v _ node

end CursorNode

/-! ## Pulls of a cursor -/

namespace Cursor

/-- What the pull with a number comes to when all the pulls before it are made. Before each pull the
execution may have been cancelled. -/
def pullAt (c : Cursor) (v : StoreView) (cancelled : Nat → Bool) (trace : ReadTrace) (m : Monitor) :
    Nat → Pulled
  | 0 => c.next v (cancelled 0) trace m
  | n + 1 =>
    let p := c.next v (cancelled 0) trace m
    p.cursor.pullAt v (fun i => cancelled (i + 1)) p.trace p.monitor n

/-- From a pull on, every one answers that there are no more records. -/
def EndsAt (pulled : Nat → Pulled) (k : Nat) : Prop :=
  ∀ n, k ≤ n → (pulled n).result = .ok none ∧ (pulled n).cursor.state = .exhausted

/-- A pull answers with an error, and every later one that the cursor was aborted. -/
def FailsAt (pulled : Nat → Pulled) (name : String) (k : Nat) (e : ExecutionError) : Prop :=
  (pulled k).result = .error e ∧ (pulled k).cursor.state = .failed ∧
    ∀ n, k < n → (pulled n).result = .error (.aborted name) ∧ (pulled n).cursor.state = .failed

/-- What the pulls answer, next to the records and the error of the run without faults. They give
the first records of that run. Then they end, if these were all, or they fail: because the execution
was cancelled, by a fault, or as that run does. -/
def Accounts (v : StoreView) (cancelled : Nat → Bool) (records : List Record)
    (failure : Option ExecutionError) (name : String) (pulled : Nat → Pulled) : Prop :=
  ∃ k ≤ records.length, (∀ i < k, (pulled i).result = .ok records[i]?) ∧
    (k = records.length ∧ failure = none ∧ EndsAt pulled k ∨
      ∃ e, FailsAt pulled name k e ∧
        (e = .cancelled ∧ cancelled k = true ∨ ∃ err, e = .store err ∧
          ((∃ point trace, v.fault point trace = some err) ∨
            k = records.length ∧ failure = some (.store err))))

variable {v : StoreView} {cancelled : Nat → Bool} {c c' : Cursor} {trace trace' : ReadTrace}
  {m m' : Monitor}

/-- The pulls behind the first one are those of the cursor that it leaves. -/
theorem pullAt_succ {result : Except ExecutionError (Option Record)}
    (hnext : c.next v (cancelled 0) trace m = ⟨result, c', trace', m'⟩) (n : Nat) :
    c.pullAt v cancelled trace m (n + 1) =
      c'.pullAt v (fun i => cancelled (i + 1)) trace' m' n := by
  rw [pullAt, hnext]

/-- If a pull changes nothing, whether or not the execution is cancelled, then no pull does. -/
theorem pullAt_of_still {result : Except ExecutionError (Option Record)}
    (h : ∀ stop, c.next v stop trace m = ⟨result, c, trace, m⟩) (cancelled : Nat → Bool) (n : Nat) :
    c.pullAt v cancelled trace m n = ⟨result, c, trace, m⟩ := by
  induction n generalizing cancelled with
  | zero => exact h _
  | succ n ih => rw [pullAt_succ (h _), ih]

/-- An exhausted cursor never fails and never restarts, even if it is cancelled. -/
theorem pullAt_exhausted (h : c.state = .exhausted) (n : Nat) :
    c.pullAt v cancelled trace m n = ⟨.ok none, c, trace, m⟩ := by
  refine pullAt_of_still (fun stop => ?_) cancelled n
  unfold next
  rw [h]

theorem pullAt_failed (h : c.state = .failed) (n : Nat) :
    c.pullAt v cancelled trace m n = ⟨.error (.aborted c.name), c, trace, m⟩ := by
  refine pullAt_of_still (fun stop => ?_) cancelled n
  unfold next
  rw [h]

theorem endsAt_zero (hnext : c.next v (cancelled 0) trace m = ⟨.ok none, c', trace', m'⟩)
    (hstate : c'.state = .exhausted) : EndsAt (c.pullAt v cancelled trace m) 0 := by
  intro n _
  cases n with
  | zero =>
    rw [pullAt, hnext]
    exact ⟨rfl, hstate⟩
  | succ n =>
    rw [pullAt_succ hnext, pullAt_exhausted hstate]
    exact ⟨rfl, hstate⟩

theorem failsAt_zero {e : ExecutionError}
    (hnext : c.next v (cancelled 0) trace m = ⟨.error e, c', trace', m'⟩)
    (hstate : c'.state = .failed) (hname : c'.name = c.name) :
    FailsAt (c.pullAt v cancelled trace m) c.name 0 e := by
  refine ⟨by rw [pullAt, hnext], by rw [pullAt, hnext]; exact hstate, fun n hn => ?_⟩
  cases n with
  | zero => exact absurd hn (Nat.lt_irrefl 0)
  | succ n =>
    rw [pullAt_succ hnext, pullAt_failed hstate, hname]
    exact ⟨rfl, hstate⟩

/-- A cancelled pull of a cursor that has not ended fails it. -/
theorem next_cancelled (hstate : c.state = .notStarted ∨ c.state = .active) (v : StoreView)
    (trace : ReadTrace) (m : Monitor) : c.next v true trace m =
      ⟨.error .cancelled, { c with state := .failed }, trace, c.reportFailure .cancelled m⟩ := by
  unfold next
  rcases hstate with h | h <;> rw [h] <;> rfl

/-- Any other pull of a cursor that has not ended is a pull of its node. -/
theorem next_eq (hstate : c.state = .notStarted ∨ c.state = .active) (v : StoreView)
    (trace : ReadTrace) (m : Monitor) : c.next v false trace m =
      match (ExceptT.run (c.node.pull v)).run trace with
      | (.error e, trace) =>
        ⟨.error (.store e), { c with state := .failed }, trace, c.reportFailure (.store e) m⟩
      | (.ok (.emit r node), trace) =>
        ⟨.ok (some r), { c with node, state := .active, emitted := c.emitted + 1 }, trace,
          m.count fun x => { x with recordsEmitted := x.recordsEmitted + 1 }⟩
      | (.ok _, trace) =>
        ⟨.ok none, { c with state := .exhausted }, trace,
          m.event .cursorExhausted c.endFields⟩ := by
  unfold next
  rcases hstate with h | h <;> rw [h] <;> rfl

/-- A record in front of what later pulls answer. -/
theorem Accounts.cons {r : Record} {records : List Record} {failure : Option ExecutionError}
    {name : String} {pulled : Nat → Pulled} (hfirst : (pulled 0).result = .ok (some r))
    (h : Accounts v (fun i => cancelled (i + 1)) records failure name fun n => pulled (n + 1)) :
    Accounts v cancelled (r :: records) failure name pulled := by
  obtain ⟨k, hk, hrecords, hend⟩ := h
  refine ⟨k + 1, Nat.succ_le_succ hk, fun i hi => ?_, ?_⟩
  · cases i with
    | zero => exact hfirst
    | succ i => exact hrecords i (Nat.lt_of_succ_lt_succ hi)
  · rcases hend with ⟨hall, hfailure, hends⟩ | ⟨e, ⟨herror, hfailed, hlater⟩, hcause⟩
    · refine .inl ⟨congrArg (· + 1) hall, hfailure, fun n hn => ?_⟩
      cases n with
      | zero => exact absurd hn (Nat.not_succ_le_zero k)
      | succ n => exact hends n (Nat.le_of_succ_le_succ hn)
    · refine .inr ⟨e, ⟨herror, hfailed, fun n hn => ?_⟩, ?_⟩
      · cases n with
        | zero => exact absurd hn (Nat.not_lt_zero _)
        | succ n => exact hlater n (Nat.lt_of_succ_lt_succ hn)
      · rcases hcause with hcancelled | ⟨err, herr, hfault | ⟨hall, hfailure⟩⟩
        · exact .inl hcancelled
        · exact .inr ⟨err, herr, .inl hfault⟩
        · exact .inr ⟨err, herr, .inr ⟨congrArg (· + 1) hall, hfailure⟩⟩

/-- Pulls that end at once account for a run without records. -/
theorem Accounts.of_endsAt {name : String} {pulled : Nat → Pulled} (h : EndsAt pulled 0) :
    Accounts v cancelled [] none name pulled :=
  ⟨0, Nat.le_refl 0, fun i hi => absurd hi (Nat.not_lt_zero i), .inl ⟨rfl, rfl, h⟩⟩

/-- Pulls that fail at once account for any run, if the cause is not one of that run, and else for
the run that fails so. -/
theorem Accounts.of_failsAt {records : List Record} {failure : Option ExecutionError}
    {name : String}
    {pulled : Nat → Pulled} {e : ExecutionError} (h : FailsAt pulled name 0 e)
    (hcause : e = .cancelled ∧ cancelled 0 = true ∨ ∃ err, e = .store err ∧
      ((∃ point trace, v.fault point trace = some err) ∨
        records = [] ∧ failure = some (.store err))) :
    Accounts v cancelled records failure name pulled := by
  refine ⟨0, Nat.zero_le _, fun i hi => absurd hi (Nat.not_lt_zero i), .inr ⟨e, h, ?_⟩⟩
  rcases hcause with hcancelled | ⟨err, herr, hfault | ⟨hnone, hfailure⟩⟩
  · exact .inl hcancelled
  · exact .inr ⟨err, herr, .inl hfault⟩
  · exact .inr ⟨err, herr, .inr ⟨by rw [hnone, List.length_nil], hfailure⟩⟩

/-- **The pulls of a running cursor account for what draining it without faults gives.** -/
theorem drainWithin_accounts (v : StoreView) (fuel : Nat) (cancelled : Nat → Bool) (c : Cursor)
    (trace : ReadTrace) (m : Monitor) (hstate : c.state = .notStarted ∨ c.state = .active)
    (hfuel : c.node.work v < fuel) :
    Accounts v cancelled (drainWithin v.faultless false fuel c trace m).1
      (drainWithin v.faultless false fuel c trace m).2.1 c.name (c.pullAt v cancelled trace m) := by
  induction fuel generalizing cancelled c trace m with
  | zero => exact absurd hfuel (Nat.not_lt_zero _)
  | succ fuel ih =>
    -- the first pull decides: cancelled, struck by a fault, or as without faults
    by_cases hcancelled : cancelled 0 = true
    · have hnext := next_cancelled hstate v trace m
      rw [← hcancelled] at hnext
      exact .of_failsAt (failsAt_zero hnext rfl rfl) (.inl ⟨rfl, hcancelled⟩)
    · have hnext := next_eq hstate v trace m
      have hclean := next_eq hstate v.faultless trace m
      have hless := next_accounted c v.faultless false trace m
      rw [← Bool.eq_false_iff.mpr hcancelled] at hnext
      rcases CursorNode.pull_follows v c.node trace with heq | ⟨point, seen, e, after, hfault, hrun⟩
      · rw [drainWithin]
        rw [← heq] at hclean
        rw [hclean] at hless ⊢
        have hsettled := CursorNode.pull_ensures v c.node trace
        revert hnext hless hsettled
        generalize (ExceptT.run (c.node.pull v)).run trace = outcome
        intro hnext hless hsettled
        obtain ⟨result, after⟩ := outcome
        cases result with
        | error e =>
          exact .of_failsAt (failsAt_zero hnext rfl rfl) (.inr ⟨e, rfl, .inr ⟨rfl, rfl⟩⟩)
        | ok p =>
          cases p with
          | emit r node =>
            have hless : node.work v < c.node.work v := by
              rw [← CursorNode.work_faultless, ← CursorNode.work_faultless v c.node]
              exact hless
            have hlater := ih (fun i => cancelled (i + 1))
              { c with node, state := .active, emitted := c.emitted + 1 } after
              (m.count fun x => { x with recordsEmitted := x.recordsEmitted + 1 }) (.inr rfl)
              (Nat.lt_of_lt_of_le hless (Nat.le_of_lt_succ hfuel))
            refine .cons (by rw [pullAt, hnext]) ?_
            rw [funext (pullAt_succ hnext)]
            exact hlater
          | busy node => exact ((hsettled _ _ rfl).1).elim
          | done => exact .of_endsAt (endsAt_zero hnext rfl)
      · -- the fault ends the cursor, whatever the run without faults goes on to give
        rw [hrun] at hnext
        exact .of_failsAt (failsAt_zero hnext rfl rfl) (.inr ⟨e, rfl, .inl ⟨point, seen, hfault⟩⟩)

/-- **Failures do not truncate.** Whichever reads of the store fail and whenever the execution is
cancelled, the pulls of an opened cursor give the first records of the run without faults and
cancellation. Then either these were all and the cursor is exhausted for good, or a pull answers
with one error and the cursor is aborted for good. -/
theorem open_accounts {c : ExecutionContext} {p : Plan} {m m' : Monitor} {cursor : Cursor}
    (h : Cursor.open c p m = (.ok cursor, m')) (v : StoreView) (cancelled : Nat → Bool)
    (trace : ReadTrace) :
    Accounts v cancelled (cursor.drain v.faultless false trace m').1
      (cursor.drain v.faultless false trace m').2.1 cursor.name
      (cursor.pullAt v cancelled trace m') := by
  have hstate : cursor.state = .notStarted := by
    unfold Cursor.open at h
    split at h
    · cases h
    · cases h
      rfl
  refine drainWithin_accounts v _ cancelled cursor trace m' (.inl hstate) ?_
  rw [CursorNode.work_faultless]
  exact Nat.lt_succ_self _

end Cursor

/-! ## A fault inside a union -/

namespace Visits

/-- The stored visitors, in a store that fails at the third row that it is asked for. -/
def failing : StoreView :=
  { store.view with
    fault := fun point seen =>
      if point = .row ∧ seen.rows = 3 then some (.io "device went away") else none }

/-- All visitors by a scan of an index, and once more by a full scan. -/
def twice : Plan := .union [.indexScan scan, .fullScan "t"] (some "id") none

/-- The execution is cancelled behind its fifth pull. -/
theorem open_accounts_twice : ∃ c cursor m',
    ExecutionContext.create catalog "t" .serializable "" = .ok c ∧
      Cursor.open c twice {} = (.ok cursor, m') ∧
      Cursor.Accounts failing (fun i => decide (4 < i))
        (cursor.drain failing.faultless false {} m').1
        (cursor.drain failing.faultless false {} m').2.1 cursor.name
        (cursor.pullAt failing (fun i => decide (4 < i)) {} m') := by
  obtain ⟨c, cursor, m', hcreate, hopen⟩ : ∃ c cursor m',
      ExecutionContext.create catalog "t" .serializable "" = .ok c ∧
        Cursor.open c twice {} = (.ok cursor, m') := ⟨_, _, _, rfl, rfl⟩
  exact ⟨c, cursor, m', hcreate, hopen,
    Cursor.open_accounts hopen failing (fun i => decide (4 < i)) {}⟩

end Visits

end RecordLayer
