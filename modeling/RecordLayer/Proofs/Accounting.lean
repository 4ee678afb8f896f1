import RecordLayer.Proofs.Cursor.Faults
import RecordLayer.Proofs.Selection.Accounting

/-!
# The accounts balance

A planner selects and explains, plans are opened and their cursors are pulled, in any order,
through any views with any faults, with cancellations, and with pulls past the end of a cursor. All
of it reports to one monitor. **The counters of the monitor are then the numbers of what
happened,** and the ends that its log reports are those of the cursors, at most one for each, with
the number of records it gave.

The history of a cursor is kept beside it: what its pulls answered and what they wrote to the log.
One pull does one of five things (`Cursor.Pulls`); each of them keeps the cursor's own history in
order (`Opened.Sound`) and moves the counters as far as the history (`Monitor.Executes`). A run is a
sequence of activities, and the balance is kept by each of them.
-/

namespace RecordLayer

/-! ## Pulls -/

namespace Cursor

/-- Whether a cursor has not ended. -/
def Runs (c : Cursor) : Prop := c.state = .notStarted ∨ c.state = .active

/-- What a pull comes to. -/
inductive Pulls (c : Cursor) (m : Monitor) : Pulled → Prop
  | exhausted (trace : ReadTrace) : c.state = .exhausted → Pulls c m ⟨.ok none, c, trace, m⟩
  | failed (trace : ReadTrace) : c.state = .failed →
    Pulls c m ⟨.error (.aborted c.name), c, trace, m⟩
  | emits (r : Record) (node : CursorNode) (trace : ReadTrace) : c.Runs →
    Pulls c m ⟨.ok (some r), { c with node, state := .active, emitted := c.emitted + 1 }, trace,
      m.count fun x => { x with recordsEmitted := x.recordsEmitted + 1 }⟩
  | ends (trace : ReadTrace) : c.Runs →
    Pulls c m
      ⟨.ok none, { c with state := .exhausted }, trace, m.event .cursorExhausted c.endFields⟩
  | fails (e : ExecutionError) (trace : ReadTrace) : c.Runs → (e = .cancelled ∨ ∃ f, e = .store f) →
    Pulls c m ⟨.error e, { c with state := .failed }, trace, c.reportFailure e m⟩

theorem next_pulls (c : Cursor) (v : StoreView) (cancelled : Bool) (trace : ReadTrace)
    (m : Monitor) :
    c.Pulls m (c.next v cancelled trace m) := by
  by_cases hruns : c.Runs
  · cases cancelled with
    | true =>
      rw [next_cancelled hruns]
      exact .fails .cancelled trace hruns (.inl rfl)
    | false =>
      rw [next_eq hruns]
      split
      · exact .fails _ _ hruns (.inr ⟨_, rfl⟩)
      · exact .emits _ _ _ hruns
      · exact .ends _ hruns
  · unfold next
    cases hstate : c.state with
    | notStarted => exact absurd (.inl hstate) hruns
    | active => exact absurd (.inr hstate) hruns
    | exhausted => exact .exhausted trace hstate
    | failed => exact .failed trace hstate

end Cursor

/-! ## Histories of cursors -/

namespace Log

/-- The entries that a log has got since. -/
def addedSince (l l' : Log) : List LogEntry := l'.entries.drop l.entries.length

theorem addedSince_self (l : Log) : l.addedSince l = [] := List.drop_length

/-- A log gets the entry, or nothing below the threshold. -/
theorem addedSince_add (l : Log) (e : LogEntry) :
    l.addedSince (l.add e) = [] ∨ l.addedSince (l.add e) = [e] := by
  rw [addedSince, add]
  split
  · exact .inl List.drop_length
  · exact .inr List.drop_left

theorem entries_add (l : Log) (e : LogEntry) :
    (l.add e).entries = l.entries ++ l.addedSince (l.add e) := by
  rw [addedSince, add]
  split
  · rw [List.drop_length, List.append_nil]
  · rw [List.drop_left]

end Log

/-- An opened cursor with its history. -/
structure Opened where
  cursor : Cursor
  /-- What its pulls answered, in order. -/
  answers : List (Except ExecutionError (Option Record)) := []
  /-- What its opening and its pulls wrote to the log, in order. -/
  written : List LogEntry

namespace Opened

/-- The records that the cursor gave. -/
def records (o : Opened) : List Record :=
  o.answers.filterMap fun
    | .ok r => r
    | .error _ => none

/-- Whether the cursor is in the state of a failure. -/
def hasFailed (o : Opened) : Bool := o.cursor.state = .failed

/-- Whether a pull was answered with the cancellation. -/
def wasCancelled (o : Opened) : Bool :=
  o.answers.any fun
    | .ok _ => false
    | .error e => e.isCancelled

/-- The reports of the cursor's end. -/
def ends (o : Opened) : List LogEntry := o.written.filter LogEntry.isEnd

/-- The cursor after one more pull. -/
def after (o : Opened) (m : Monitor) (p : Cursor.Pulled) : Opened where
  cursor := p.cursor
  answers := o.answers ++ [p.result]
  written := o.written ++ m.log.addedSince p.monitor.log

/-- What is known of every cursor and its history. -/
structure Sound (o : Opened) : Prop where
  /-- The cursor has counted its records right. -/
  emitted : o.cursor.emitted = o.records.length
  /-- Before its end nothing is reported of it. -/
  silent : o.cursor.Runs → o.ends = []
  once : o.ends.length ≤ 1
  /-- The report of the end tells how many records the cursor gave. -/
  told : ∀ e ∈ o.ends, ("records", toString o.records.length) ∈ e.fields
  /-- A cancellation is a failure. -/
  cancelled : o.wasCancelled = true → o.hasFailed = true

variable {o : Opened} {m : Monitor}

theorem records_after (p : Cursor.Pulled) : (o.after m p).records =
    o.records ++ match p.result with
      | .ok r => r.toList
      | .error _ => [] := by
  rw [records, after, List.filterMap_append]
  cases p.result with
  | ok r => cases r <;> rfl
  | error e => rfl

theorem wasCancelled_after (p : Cursor.Pulled) : (o.after m p).wasCancelled =
    (o.wasCancelled || match p.result with
      | .ok _ => false
      | .error e => e.isCancelled) := by
  simp [wasCancelled, after]

theorem ends_after (p : Cursor.Pulled) :
    (o.after m p).ends = o.ends ++ (m.log.addedSince p.monitor.log).filter LogEntry.isEnd := by
  rw [ends, after, List.filter_append, ends]

/-! ### What a pull keeps -/

/-- A pull that writes nothing, of a cursor that has ended before. -/
theorem Sound.after_nothing (h : o.Sound) {answer : Except ExecutionError (Option Record)}
    (hanswer : answer = .ok none ∨ ∃ e, answer = .error e ∧ e.isCancelled = false)
    (trace : ReadTrace) : (o.after m ⟨answer, o.cursor, trace, m⟩).Sound := by
  have hrecords : (o.after m ⟨answer, o.cursor, trace, m⟩).records = o.records := by
    rw [records_after]
    rcases hanswer with rfl | ⟨e, rfl, -⟩ <;> exact List.append_nil _
  have hcancelled : (o.after m ⟨answer, o.cursor, trace, m⟩).wasCancelled = o.wasCancelled := by
    rw [wasCancelled_after]
    rcases hanswer with rfl | ⟨e, rfl, he⟩
    · exact Bool.or_false _
    · simp [he]
  have hends : (o.after m ⟨answer, o.cursor, trace, m⟩).ends = o.ends := by
    rw [ends_after, Log.addedSince_self]
    exact List.append_nil _
  exact ⟨hrecords ▸ h.emitted, hends ▸ h.silent, hends ▸ h.once, hends ▸ hrecords ▸ h.told,
    fun hc => h.cancelled (hcancelled ▸ hc)⟩

theorem Sound.not_cancelled (h : o.Sound) (hruns : o.cursor.Runs) : o.wasCancelled = false := by
  rw [Bool.eq_false_iff]
  intro hc
  have hfailed : o.cursor.state = .failed := of_decide_eq_true (h.cancelled hc)
  rcases hruns with hstate | hstate <;> rw [hstate] at hfailed <;> cases hfailed

/-- A pull that gives a record. -/
theorem Sound.after_record (h : o.Sound) (hruns : o.cursor.Runs) {p : Cursor.Pulled} {r : Record}
    (hresult : p.result = .ok (some r)) (hlog : p.monitor.log = m.log)
    (hemitted : p.cursor.emitted = o.cursor.emitted + 1) : (o.after m p).Sound := by
  have hrecords : (o.after m p).records = o.records ++ [r] := by
    rw [records_after, hresult]
    rfl
  have hends : (o.after m p).ends = [] := by
    rw [ends_after, hlog, Log.addedSince_self, h.silent hruns]
    rfl
  have hcancelled : (o.after m p).wasCancelled = false := by
    rw [wasCancelled_after, h.not_cancelled hruns, hresult]
    rfl
  refine ⟨?_, fun _ => hends, by simp [hends], by simp [hends], by simp [hcancelled]⟩
  rw [hrecords, List.length_append, ← h.emitted]
  exact hemitted

/-- A pull that ends the cursor and reports the end. -/
theorem Sound.after_report (h : o.Sound) (hruns : o.cursor.Runs) {p : Cursor.Pulled} {e : LogEntry}
    (hlog : p.monitor.log = m.log.add e)
    (htold : ("records", toString o.cursor.emitted) ∈ e.fields)
    (hemitted : p.cursor.emitted = o.cursor.emitted)
    (hresult : p.result = .ok none ∧ p.cursor.state = .exhausted ∨
      ∃ x, p.result = .error x ∧ p.cursor.state = .failed) : (o.after m p).Sound := by
  have hrecords : (o.after m p).records = o.records := by
    rw [records_after]
    rcases hresult with ⟨heq, -⟩ | ⟨x, heq, -⟩ <;> rw [heq] <;> exact List.append_nil _
  have hends : (o.after m p).ends = (m.log.addedSince (m.log.add e)).filter LogEntry.isEnd := by
    rw [ends_after, h.silent hruns, hlog, List.nil_append]
  refine ⟨?_, fun hr => ?_, ?_, ?_, fun hc => ?_⟩
  · exact hemitted.trans (hrecords ▸ h.emitted)
  · -- an ended cursor does not run
    rcases hresult with ⟨-, hstate⟩ | ⟨x, -, hstate⟩ <;>
      rcases hr with hr | hr <;> exact absurd (hstate.symm.trans hr) (by decide)
  · rw [hends]
    refine Nat.le_trans (List.length_filter_le _ _) ?_
    rcases m.log.addedSince_add e with heq | heq <;> simp [heq]
  · intro x hx
    have hx : x ∈ m.log.addedSince (m.log.add e) := List.mem_of_mem_filter (hends ▸ hx)
    obtain rfl : x = e := by
      rcases m.log.addedSince_add e with heq | heq <;> rw [heq] at hx
      · cases hx
      · exact List.mem_singleton.1 hx
    rw [hrecords, ← h.emitted]
    exact htold
  · rw [wasCancelled_after, h.not_cancelled hruns, Bool.false_or] at hc
    rcases hresult with ⟨heq, -⟩ | ⟨x, -, hstate⟩
    · rw [heq] at hc
      cases hc
    · exact decide_eq_true hstate

end Opened

/-! ### What a pull counts -/

/-- What planning reports: answers, plans by mode, and look-ups. -/
def Monitor.planning (m : Monitor) : Nat × Nat × Nat × Nat × Nat × Nat :=
  (m.answers, m.metrics.plansSelected, m.metrics.plansCostBased, m.metrics.plansHeuristic,
    m.metrics.cacheCollisions, m.metrics.cacheMisses)

namespace Cursor

variable (c : Cursor) (m : Monitor)

theorem endFields_records : ("records", toString c.emitted) ∈ c.endFields := List.mem_cons_self

/-- A failure is reported once, as a cancellation or as an abort, with the number of records. -/
theorem reportFailure_log (e : ExecutionError) : ∃ entry : LogEntry,
    (c.reportFailure e m).log = m.log.add entry ∧
      ("records", toString c.emitted) ∈ entry.fields := by
  rw [reportFailure]
  split
  · exact ⟨Event.queryCancelled.entry c.endFields, rfl, c.endFields_records⟩
  · exact ⟨_, rfl, List.mem_append_right _ c.endFields_records⟩

theorem reportFailure_metrics (e : ExecutionError) : (c.reportFailure e m).metrics =
    { m.metrics with
      executionErrors := m.metrics.executionErrors + 1
      queriesCancelled := m.metrics.queriesCancelled + e.isCancelled.toNat } := by
  rw [reportFailure]
  split <;> simp [*, Monitor.count, Monitor.event, Monitor.add]

end Cursor

theorem Opened.Sound.pull {o : Opened} {m : Monitor} {p : Cursor.Pulled} (h : o.Sound)
    (hp : o.cursor.Pulls m p) : (o.after m p).Sound := by
  cases hp with
  | exhausted trace _ => exact h.after_nothing (.inl rfl) trace
  | failed trace _ => exact h.after_nothing (.inr ⟨_, rfl, rfl⟩) trace
  | emits r node trace hruns => exact h.after_record hruns rfl rfl rfl
  | ends trace hruns =>
    exact h.after_report hruns rfl o.cursor.endFields_records rfl (.inl ⟨rfl, rfl⟩)
  | fails e trace hruns _ =>
    obtain ⟨entry, hlog, htold⟩ := o.cursor.reportFailure_log m e
    exact h.after_report hruns hlog htold rfl (.inr ⟨e, rfl, rfl⟩)

/-- From one state of the monitor to another, the counters moved as far as the
history of a cursor. -/
structure Monitor.Executes (m m' : Monitor) (o o' : Opened) : Prop where
  planning : m'.planning = m.planning
  records : m'.metrics.recordsEmitted + o.records.length =
    m.metrics.recordsEmitted + o'.records.length
  errors : m'.metrics.executionErrors + o.hasFailed.toNat =
    m.metrics.executionErrors + o'.hasFailed.toNat
  cancellations : m'.metrics.queriesCancelled + o.wasCancelled.toNat =
    m.metrics.queriesCancelled + o'.wasCancelled.toNat
  ends : ∃ es, m'.ends = m.ends ++ es ∧ o'.ends = o.ends ++ es

theorem Cursor.Pulls.log {c : Cursor} {m : Monitor} {p : Cursor.Pulled} (hp : c.Pulls m p) :
    p.monitor.log = m.log ∨ ∃ e, p.monitor.log = m.log.add e := by
  cases hp with
  | exhausted | failed | emits => exact .inl rfl
  | ends => exact .inr ⟨_, rfl⟩
  | fails e =>
    obtain ⟨entry, hlog, -⟩ := c.reportFailure_log m e
    exact .inr ⟨entry, hlog⟩

/-- A pull moves a counter by one at most. -/
theorem Cursor.Pulls.grows {c : Cursor} {m : Monitor} {p : Cursor.Pulled} (hp : c.Pulls m p) :
    m.Grows p.monitor 1 := by
  cases hp with
  | exhausted | failed | ends => exact (Monitor.grows_of_metrics rfl).mono (Nat.zero_le 1)
  | emits => simp [Monitor.Grows, Monitor.counters, Monitor.count]
  | fails e =>
    have hone : e.isCancelled.toNat ≤ 1 := Bool.toNat_le _
    simpa [Monitor.Grows, Monitor.counters, c.reportFailure_metrics m e] using hone

theorem Opened.ends_pull {o : Opened} {m : Monitor} {p : Cursor.Pulled} (hp : o.cursor.Pulls m p) :
    ∃ es, p.monitor.ends = m.ends ++ es ∧ (o.after m p).ends = o.ends ++ es := by
  refine ⟨_, ?_, ends_after p⟩
  rcases hp.log with hlog | ⟨e, hlog⟩
  · rw [Monitor.ends, hlog, Log.addedSince_self, List.filter_nil, List.append_nil, Monitor.ends]
  · rw [Monitor.ends, hlog, Log.entries_add, List.filter_append, Monitor.ends]

theorem Opened.Sound.executes {o : Opened} {m : Monitor} {p : Cursor.Pulled} (h : o.Sound)
    (hp : o.cursor.Pulls m p) : m.Executes p.monitor o (o.after m p) := by
  have hends := Opened.ends_pull hp
  have hfailed (hruns : o.cursor.Runs) : o.hasFailed = false := by
    rcases hruns with hstate | hstate <;> simp [Opened.hasFailed, hstate]
  cases hp with
  | exhausted trace _ =>
    refine ⟨rfl, ?_, rfl, ?_, hends⟩
    · simp [Opened.records_after]
    · simp [Opened.wasCancelled_after]
  | failed trace _ =>
    refine ⟨rfl, ?_, rfl, ?_, hends⟩
    · simp [Opened.records_after]
    · simp [Opened.wasCancelled_after, ExecutionError.isCancelled]
  | emits r node trace hruns =>
    refine ⟨rfl, ?_, ?_, ?_, hends⟩
    · simp [Opened.records_after, Monitor.count]
      omega
    · rw [hfailed hruns]
      rfl
    · simp [Opened.wasCancelled_after, Monitor.count]
  | ends trace hruns =>
    refine ⟨rfl, ?_, ?_, ?_, hends⟩
    · simp [Opened.records_after, Monitor.event, Monitor.add]
    · rw [hfailed hruns]
      rfl
    · simp [Opened.wasCancelled_after, Monitor.event, Monitor.add]
  | fails e trace hruns he =>
    -- a pull that fails is counted once, and one that was cancelled also as such
    have hmetrics := o.cursor.reportFailure_metrics m e
    refine ⟨?_, ?_, ?_, ?_, hends⟩
    · simp only [Monitor.planning, Monitor.answers, hmetrics]
    · simp [Opened.records_after, hmetrics]
    · rw [hfailed hruns, hmetrics]
      rfl
    · rw [Opened.wasCancelled_after, h.not_cancelled hruns, hmetrics]
      simp

/-! ## Runs -/

/-- What can be done with a planner and the cursors opened so far. The statistics, the view
of the store with its faults, and what the store has seen of earlier readings may differ from
one to the next. -/
inductive Activity
  | select (source : StatisticsSource) (q : Query)
  | explain (source : StatisticsSource) (q : Query)
  | invalidate
  /-- Opens a cursor for a plan. -/
  | execute (context : ExecutionContext) (plan : Plan)
  /-- Pulls one of the opened cursors, whether or not it has ended. -/
  | pull (cursor : Nat) (view : StoreView) (cancelled : Bool) (trace : ReadTrace)

/-- Whether it asks for a plan. -/
def Activity.plans : Activity → Bool
  | .select .. | .explain .. => true
  | _ => false

/-- A planner's state and the cursors opened so far. -/
structure Run where
  state : PlannerState
  opened : List Opened := []

namespace Run

/-- The monitor that planning and executions share. -/
def monitor (r : Run) : Monitor := r.state.monitor

/-- The run with another monitor. -/
def withMonitor (r : Run) (m : Monitor) : Run := { r with state := { r.state with monitor := m } }

/-- One activity. -/
def step (p : Planner) (r : Run) : Activity → Run
  | .select source q => { r with state := (p.select source q r.state).2 }
  | .explain source q => { r with state := (p.explain source q r.state).2 }
  | .invalidate => { r with state := Planner.invalidateCache r.state }
  | .execute context plan =>
    match Cursor.open context plan r.monitor with
    | (.error _, m) => r.withMonitor m
    | (.ok cursor, m) =>
      { r.withMonitor m with
        opened := r.opened ++ [{ cursor, written := r.monitor.log.addedSince m.log }] }
  | .pull i view cancelled trace =>
    match r.opened[i]? with
    | none => r
    | some o =>
      let pulled := o.cursor.next view cancelled trace r.monitor
      { r.withMonitor pulled.monitor with opened := r.opened.set i (o.after r.monitor pulled) }

/-- The run of activities from a cache and a log, with no counter moved. -/
def after (p : Planner) (cache : PlanCache) (log : Log) (activities : List Activity) : Run :=
  activities.foldl (step p) { state := { cache, monitor := { log } } }

/-- The accounts of a run of so many plannings, with the ends of cursors that the log had before. -/
structure Balanced (r : Run) (plannings : Nat) (before : List LogEntry) : Prop where
  answers : r.monitor.answers = plannings
  modes : r.monitor.metrics.plansSelected =
    r.monitor.metrics.plansCostBased + r.monitor.metrics.plansHeuristic
  collisions : r.monitor.metrics.cacheCollisions ≤ r.monitor.metrics.cacheMisses
  records : r.monitor.metrics.recordsEmitted = (r.opened.flatMap Opened.records).length
  errors : r.monitor.metrics.executionErrors = r.opened.countP (·.hasFailed)
  cancellations : r.monitor.metrics.queriesCancelled = r.opened.countP (·.wasCancelled)
  ends : r.monitor.ends.Perm (before ++ r.opened.flatMap Opened.ends)
  sound : ∀ o ∈ r.opened, o.Sound

variable {r : Run} {n : Nat} {before : List LogEntry} {p : Planner}

/-- Planning counts its answers and leaves the cursors alone. -/
theorem Balanced.plan (h : r.Balanced n before) {s : PlannerState} {k moved : Nat}
    (hplans : r.monitor.Plans s.monitor k moved) :
    Balanced { r with state := s } (n + k) before := by
  have hexecutions := hplans.executions
  simp only [Monitor.executions, Prod.mk.injEq] at hexecutions
  obtain ⟨hrecords, herrors, hcancelled, hends⟩ := hexecutions
  refine ⟨?_, ?_, ?_, hrecords.trans h.records, herrors.trans h.errors,
    hcancelled.trans h.cancellations, ?_, h.sound⟩
  · exact hplans.answers.trans (congrArg (· + k) h.answers)
  · have := hplans.modes
    have := h.modes
    simp only [monitor] at *
    omega
  · have := hplans.collisions
    have := h.collisions
    simp only [monitor] at *
    omega
  · change s.monitor.ends.Perm _
    rw [hends]
    exact h.ends

/-- Opening a cursor counts no answer and reports no end. -/
theorem open_cases (context : ExecutionContext) (plan : Plan) (m : Monitor) :
    (∃ e, Cursor.open context plan m = (.error e, m)) ∨
      ∃ cursor m', Cursor.open context plan m = (.ok cursor, m') ∧ m.Plans m' 0 1 ∧
        cursor.emitted = 0 ∧ cursor.state = .notStarted ∧
        (m.log.addedSince m'.log).filter LogEntry.isEnd = [] := by
  rw [Cursor.open]
  split
  · exact .inl ⟨_, rfl⟩
  · refine .inr ⟨_, _, rfl, ?_, rfl, rfl, ?_⟩
    · have hcount {m : Monitor} : m.Plans
          (m.count fun x => { x with cursorsOpened := x.cursorsOpened + 1 }) 0 1 :=
        ⟨rfl, rfl, Nat.le_refl _, rfl, by simp [Monitor.Grows, Monitor.counters, Monitor.count]⟩
      exact (Monitor.plans_add rfl).prepend hcount
    · rcases m.log.addedSince_add (Event.cursorOpened.entry [("plan_type", plan.typeName),
        ("record_type", context.recordType.name), ("request_id", context.requestId)]) with heq | heq
      · exact congrArg (List.filter _) heq
      · exact congrArg (List.filter _) heq

/-- A cursor that was just opened has an empty history. -/
theorem sound_opened {cursor : Cursor} {written : List LogEntry} (hemitted : cursor.emitted = 0)
    (hends : written.filter LogEntry.isEnd = []) : Opened.Sound { cursor, written } := by
  have hends : ({ cursor, written } : Opened).ends = [] := hends
  exact ⟨hemitted, fun _ => hends, by simp [hends], by simp [hends], fun h => by cases h⟩

theorem Balanced.execute (h : r.Balanced n before) (context : ExecutionContext) (plan : Plan) :
    (r.step p (.execute context plan)).Balanced n before := by
  rw [step]
  rcases open_cases context plan r.monitor with
    ⟨e, heq⟩ | ⟨cursor, m, heq, hplans, hemitted, hstate, hends⟩
  · rw [heq]
    exact h.plan (.refl _)
  · rw [heq]
    have h := h.plan (s := { r.state with monitor := m }) hplans
    have hsound := sound_opened hemitted hends
    have hall : ∀ o ∈ r.opened ++ [{ cursor, written := r.monitor.log.addedSince m.log }],
      o.Sound :=
      List.forall_mem_append.2 ⟨h.sound, List.forall_mem_singleton.2 hsound⟩
    refine ⟨h.answers, h.modes, h.collisions, h.records.trans ?_, h.errors.trans ?_,
      h.cancellations.trans ?_, h.ends.trans ?_, hall⟩
    · simp [Opened.records]
    · simp [Opened.hasFailed, hstate]
    · simp [Opened.wasCancelled]
    · simp [Opened.ends, hends]

/-- What is changed at one place of the opened cursors. -/
theorem split_at {o : Opened} {i : Nat} {opened : List Opened} (h : opened[i]? = some o) :
    ∃ as bs, opened = as ++ o :: bs ∧ ∀ o', opened.set i o' = as ++ o' :: bs := by
  obtain ⟨hi, rfl⟩ := List.getElem?_eq_some_iff.1 h
  refine ⟨opened.take i, opened.drop (i + 1), ?_, fun o' => ?_⟩
  · rw [← List.drop_eq_getElem_cons hi, List.take_append_drop]
  · rw [List.set_eq_take_append_cons_drop, if_pos hi]

/-- A pull moves the counters as far as the history of its cursor. -/
theorem Balanced.pull (h : r.Balanced n before) (i : Nat) (view : StoreView) (cancelled : Bool)
    (trace : ReadTrace) : (r.step p (.pull i view cancelled trace)).Balanced n before := by
  rw [step]
  split
  · exact h
  · rename_i o hget
    have hpulls := o.cursor.next_pulls view cancelled trace r.monitor
    generalize o.cursor.next view cancelled trace r.monitor = pulled at hpulls ⊢
    have hsound := h.sound o (List.mem_of_getElem? hget)
    obtain ⟨hplanning, hrecords, herrors, hcancelled, es, hends, hown⟩ := hsound.executes hpulls
    -- the sums over all cursors change by what this one adds
    obtain ⟨as, bs, hopened, hset⟩ := split_at hget
    simp only [Monitor.planning, Prod.mk.injEq] at hplanning
    obtain ⟨hanswers, hselected, hcosted, hheuristic, hcollisions, hmisses⟩ := hplanning
    have hnat (b : Bool) : (if b = true then 1 else 0) = b.toNat := by cases b <;> rfl
    simp only [hset]
    refine ⟨hanswers.trans h.answers, ?_, ?_, ?_, ?_, ?_, ?_, ?_⟩
    · have := h.modes
      simp only [monitor, withMonitor] at *
      omega
    · have := h.collisions
      simp only [monitor, withMonitor] at *
      omega
    · have := h.records
      simp only [hopened, monitor, withMonitor, List.flatMap_append, List.flatMap_cons,
        List.length_append] at *
      omega
    · have := h.errors
      simp only [hopened, monitor, withMonitor, List.countP_append, List.countP_cons, hnat] at *
      omega
    · have := h.cancellations
      simp only [hopened, monitor, withMonitor, List.countP_append, List.countP_cons, hnat] at *
      omega
    · have hperm := h.ends
      rw [hopened] at hperm
      change pulled.monitor.ends.Perm _
      rw [hends]
      refine (hperm.append_right es).trans ?_
      simp only [List.flatMap_append, List.flatMap_cons, hown, List.append_assoc]
      exact (((List.perm_append_comm.append_left _).append_left _).append_left _)
    · have hall := h.sound
      rw [hopened, List.forall_mem_append, List.forall_mem_cons] at hall
      exact List.forall_mem_append.2 ⟨hall.1, List.forall_mem_cons.2 ⟨hsound.pull hpulls, hall.2.2⟩⟩

theorem Balanced.step (h : r.Balanced n before) (activity : Activity) :
    (r.step p activity).Balanced (n + activity.plans.toNat) before := by
  cases activity with
  | select source q => exact h.plan (Planner.select_plans source q)
  | explain source q => exact h.plan (Planner.explain_plans source q)
  | invalidate => exact h.plan (.refl _)
  | execute context plan => exact h.execute context plan
  | pull i view cancelled trace => exact h.pull i view cancelled trace

theorem after_balanced (p : Planner) (cache : PlanCache) (log : Log) (activities : List Activity) :
    (after p cache log activities).Balanced (activities.countP Activity.plans)
      (log.entries.filter LogEntry.isEnd) := by
  -- the balance before an activity gives the balance after it; the number of selections grows along
  have hrun : ∀ (activities : List Activity) (r : Run) (n : Nat),
      r.Balanced n (log.entries.filter LogEntry.isEnd) →
      (activities.foldl (step p) r).Balanced (n + activities.countP Activity.plans)
        (log.entries.filter LogEntry.isEnd) := by
    intro activities
    induction activities with
    | nil => exact fun r n h => h
    | cons activity rest ih =>
      intro r n h
      have hcount : n + (activity :: rest).countP Activity.plans =
          n + activity.plans.toNat + rest.countP Activity.plans := by
        rw [List.countP_cons]
        cases activity.plans
        · simp
        · simp
          omega
      rw [List.foldl_cons, hcount]
      exact ih _ _ (h.step activity)
  have hstart : Balanced { state := { cache, monitor := { log } } } 0
      (log.entries.filter LogEntry.isEnd) :=
    ⟨rfl, rfl, Nat.le_refl _, rfl, rfl, rfl, by simp [monitor, Monitor.ends], fun o h => nomatch h⟩
  simpa [after] using hrun activities _ 0 hstart

theorem step_grows (p : Planner) (r : Run) (activity : Activity) :
    r.monitor.Grows (r.step p activity).monitor (p.catalog.indexes.length + 6) := by
  cases activity with
  | select source q => exact (Planner.select_plans source q).grows
  | explain source q => exact (Planner.explain_plans source q).grows
  | invalidate => exact (Monitor.grows_of_metrics rfl).mono (Nat.zero_le _)
  | execute context plan =>
    rw [step]
    rcases open_cases context plan r.monitor with ⟨e, heq⟩ | ⟨cursor, m, heq, hplans, -⟩
    · rw [heq]
      exact (Monitor.grows_of_metrics rfl).mono (Nat.zero_le _)
    · rw [heq]
      exact hplans.grows.mono (by omega)
  | pull i view cancelled trace =>
    rw [step]
    split
    · exact (Monitor.grows_of_metrics rfl).mono (Nat.zero_le _)
    · rename_i o _
      exact (o.cursor.next_pulls view cancelled trace r.monitor).grows.mono (by omega)

theorem run_grows (p : Planner) : ∀ (activities : List Activity) (r : Run), r.monitor.Grows
    (activities.foldl (step p) r).monitor (activities.length * (p.catalog.indexes.length + 6)) := by
  intro activities
  induction activities with
  | nil => exact fun r => by simpa using Monitor.grows_of_metrics rfl
  | cons activity rest ih =>
    intro r
    rw [List.foldl_cons, List.length_cons, Nat.succ_mul, Nat.add_comm]
    exact (step_grows p r activity).trans (ih _)

/-- **The counters grow with the activities,** each by as much as the largest selection may move it.
A word holds them for as long as a word can count the activities so often, and likewise the number
of records that a cursor has given. -/
theorem counters_le (p : Planner) (cache : PlanCache) (log : Log) (activities : List Activity) :
    let r := after p cache log activities
    let bound := activities.length * (p.catalog.indexes.length + 6)
    (∀ counter ∈ r.monitor.metrics.toList, counter.2 ≤ bound) ∧
      ∀ o ∈ r.opened, o.cursor.emitted ≤ bound := by
  have hzero : ∀ counter ∈ Monitor.counters, counter ({} : Metrics) = 0 := by
    simp [Monitor.counters]
  have hcounters : ∀ counter ∈ Monitor.counters,
      counter (after p cache log activities).monitor.metrics ≤
        activities.length * (p.catalog.indexes.length + 6) := by
    intro counter hcounter
    have hle := run_grows p activities { state := { cache, monitor := { log } } } counter hcounter
    simp only [monitor, hzero counter hcounter, Nat.zero_add] at hle
    exact hle
  have h := after_balanced p cache log activities
  refine ⟨fun counter hcounter => ?_, fun o ho => ?_⟩
  · have hmem := List.mem_map_of_mem (f := Prod.snd) hcounter
    rw [Monitor.toList_eq] at hmem
    obtain ⟨f, hf, heq⟩ := List.mem_map.1 hmem
    rw [← heq]
    exact hcounters f hf
  · -- the records of one cursor are among those of all
    have hsublist := List.sublist_flatten_of_mem (List.mem_map_of_mem (f := Opened.records) ho)
    rw [← List.flatMap_def] at hsublist
    rw [(h.sound o ho).emitted]
    refine Nat.le_trans hsublist.length_le ?_
    rw [← h.records]
    exact hcounters Metrics.recordsEmitted (by simp [Monitor.counters])

/-- **The accounts of every run balance.** Each selection or explanation is counted once, as a plan
selected, a cache hit or a planning failure; the plans selected are those of the two modes; a
collision is a miss. The records emitted are those that the cursors gave, the execution errors are
the cursors that have failed, the cancellations those that failed by being cancelled. The ends of
cursors in the log are, apart from those that it held before, the ones that the opened cursors
wrote; each cursor wrote at most one, with the number of records that it gave. -/
theorem accounts_balance (p : Planner) (cache : PlanCache) (log : Log)
    (activities : List Activity) :
    let r := after p cache log activities
    let m := r.monitor.metrics
    m.plansSelected + m.cacheHits + m.planningFailures = activities.countP Activity.plans ∧
      m.plansSelected = m.plansCostBased + m.plansHeuristic ∧
      m.cacheCollisions ≤ m.cacheMisses ∧
      m.recordsEmitted = (r.opened.flatMap Opened.records).length ∧
      m.executionErrors = r.opened.countP (·.hasFailed) ∧
      m.queriesCancelled = r.opened.countP (fun o => o.hasFailed && o.wasCancelled) ∧
      r.monitor.ends.Perm (log.entries.filter LogEntry.isEnd ++ r.opened.flatMap Opened.ends) ∧
      ∀ o ∈ r.opened, o.ends.length ≤ 1 ∧
        ∀ e ∈ o.ends, ("records", toString o.records.length) ∈ e.fields := by
  have h := after_balanced p cache log activities
  have hcancelled : (after p cache log activities).opened.countP (·.wasCancelled) =
      (after p cache log activities).opened.countP (fun o => o.hasFailed && o.wasCancelled) := by
    refine List.countP_congr fun o ho => ?_
    have := (h.sound o ho).cancelled
    cases hc : o.wasCancelled <;> simp_all
  exact ⟨h.answers, h.modes, h.collisions, h.records, h.errors, h.cancellations.trans hcancelled,
    h.ends, fun o ho => ⟨(h.sound o ho).once, (h.sound o ho).told⟩⟩

end Run

end RecordLayer
