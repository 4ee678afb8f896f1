import RecordLayer.Proofs.Statistics.Gathering
import RecordLayer.Selection.Explanation

/-!
# What planning counts

A selection reports to the monitor at many places: on its way out of the cache, at each of the
stages where a query can be refused, and for a plan that it made. Put together, a selection counts
exactly once among the plans selected, the cache hits and the planning failures; a plan that is
counted is counted under one mode; a collision is always a miss too; and nothing that executions
report is touched.

`Monitor.Plans` says this of two states of a monitor. It holds for each single report, and reports
compose, so a selection only has to be walked through. On the way no counter moves by more than
there are reports, and these are at most six besides the statistics that are rejected.
-/

namespace RecordLayer

/-- Whether an entry reports the end of a cursor. -/
def LogEntry.isEnd (e : LogEntry) : Bool :=
  [Event.cursorExhausted, .cursorAborted, .queryCancelled].any (·.name == e.event)

namespace Monitor

/-- The reports of ends of cursors, in order. -/
def ends (m : Monitor) : List LogEntry := m.log.entries.filter LogEntry.isEnd

/-- How many answers of planning were counted. -/
def answers (m : Monitor) : Nat :=
  m.metrics.plansSelected + m.metrics.cacheHits + m.metrics.planningFailures

/-- What executions report: records, errors, cancellations and ends. -/
def executions (m : Monitor) : Nat × Nat × Nat × List LogEntry :=
  (m.metrics.recordsEmitted, m.metrics.executionErrors, m.metrics.queriesCancelled, m.ends)

/-- All counters. -/
def counters : List (Metrics → Nat) := [Metrics.plansSelected, Metrics.plansCostBased,
  Metrics.plansHeuristic, Metrics.planningFailures, Metrics.cacheHits, Metrics.cacheMisses,
  Metrics.cacheEvictions, Metrics.cacheCollisions, Metrics.estimationFallbacks,
  Metrics.dnfSkipped, Metrics.cursorsOpened, Metrics.recordsEmitted, Metrics.executionErrors,
  Metrics.queriesCancelled]

theorem toList_eq (x : Metrics) : x.toList.map Prod.snd = counters.map (· x) := rfl

/-- No counter moved by more than `k`. -/
def Grows (m m' : Monitor) (k : Nat) : Prop :=
  ∀ counter ∈ counters, counter m'.metrics ≤ counter m.metrics + k

/-- From one state of the monitor to another, planning counted `n` answers, and no counter moved by
more than `k`. -/
structure Plans (m m' : Monitor) (n k : Nat) : Prop where
  answers : m'.answers = m.answers + n
  modes : m'.metrics.plansSelected + (m.metrics.plansCostBased + m.metrics.plansHeuristic) =
    m.metrics.plansSelected + (m'.metrics.plansCostBased + m'.metrics.plansHeuristic)
  collisions : m'.metrics.cacheCollisions + m.metrics.cacheMisses ≤
    m.metrics.cacheCollisions + m'.metrics.cacheMisses
  executions : m'.executions = m.executions
  grows : m.Grows m' k

variable {m m' m'' : Monitor} {n n' k k' : Nat}

theorem Grows.trans (h : Grows m m' k) (h' : Grows m' m'' k') : Grows m m'' (k + k') := by
  intro counter hcounter
  have := h counter hcounter
  have := h' counter hcounter
  omega

theorem Grows.mono (h : Grows m m' k) (hk : k ≤ k') : Grows m m' k' := fun counter hcounter =>
  Nat.le_trans (h counter hcounter) (Nat.add_le_add_left hk _)

theorem grows_of_metrics (h : m'.metrics = m.metrics) : Grows m m' 0 := fun _ _ => by
  rw [h]
  exact Nat.le_refl _

theorem Plans.refl (m : Monitor) : Plans m m 0 0 :=
  ⟨rfl, rfl, Nat.le_refl _, rfl, grows_of_metrics rfl⟩

theorem Plans.trans (h : Plans m m' n k) (h' : Plans m' m'' n' k') :
    Plans m m'' (n + n') (k + k') where
  answers := by rw [h'.answers, h.answers, Nat.add_assoc]
  modes := by have := h.modes; have := h'.modes; omega
  collisions := by have := h.collisions; have := h'.collisions; omega
  executions := h'.executions.trans h.executions
  grows := h.grows.trans h'.grows

theorem Plans.prepend (h : Plans m m' 0 k) (h' : Plans m' m'' n k') : Plans m m'' n (k + k') := by
  simpa using h.trans h'

theorem Plans.mono (h : Plans m m' n k) (hk : k ≤ k') : Plans m m' n k' :=
  { h with grows := h.grows.mono hk }

/-- Any entry but the end of a cursor. -/
theorem plans_add {e : LogEntry} (h : e.isEnd = false) : Plans m (m.add e) 0 0 := by
  have hends : (m.add e).ends = m.ends := by
    simp only [ends, add, Log.add]
    split
    · rfl
    · simp [h]
  exact ⟨rfl, rfl, Nat.le_refl _, by simp only [Monitor.executions, hends]; rfl,
    grows_of_metrics rfl⟩

end Monitor

namespace Planner

open Monitor

variable {p : Planner} {s : PlannerState}

/-! ## The reports on the way to a plan -/

theorem count_grows {f : Metrics → Metrics} {k : Nat}
    (h : ∀ counter ∈ counters, counter (f s.monitor.metrics) ≤ counter s.monitor.metrics + k) :
    s.monitor.Grows (s.count f).monitor k := h

theorem event_plans {e : Event} (h : (e.entry []).isEnd = false) (fields : List (String × String)) :
    Plans s.monitor (s.event e fields).monitor 0 0 :=
  plans_add h

theorem reportSelection_plans (q : Query) (chosen : Selection) :
    Plans s.monitor (reportSelection s q chosen).monitor 0 0 :=
  event_plans rfl _

theorem reportPrepared_plans (r : Filter.Prepared) :
    Plans s.monitor (p.reportPrepared s r).monitor 0 1 := by
  have hskipped : Plans s.monitor
      (s.count fun m => { m with dnfSkipped := m.dnfSkipped + 1 }).monitor 0 1 :=
    ⟨rfl, rfl, Nat.le_refl _, rfl, count_grows (by simp [counters])⟩
  rw [reportPrepared]
  split
  · exact hskipped.trans (event_plans rfl _)
  · exact (Plans.refl _).mono (Nat.zero_le 1)

theorem reportRejected_plans (rejected : List StatisticsError) :
    Plans s.monitor (reportRejected s rejected).monitor 0 rejected.length := by
  induction rejected generalizing s with
  | nil => exact .refl _
  | cons e rest ih =>
    have hfallback : Plans s.monitor
        (s.count fun m =>
          { m with estimationFallbacks := m.estimationFallbacks + 1 }).monitor 0 1 :=
      ⟨rfl, rfl, Nat.le_refl _, rfl, count_grows (by simp [counters])⟩
    rw [List.length_cons, Nat.add_comm]
    exact (hfallback.trans (event_plans rfl _)).trans ih

theorem reportOverlong_plans (lists : List (String × Nat)) :
    Plans s.monitor (p.reportOverlong s lists).monitor 0 0 := by
  induction lists generalizing s with
  | nil => exact .refl _
  | cons l rest ih => exact (event_plans rfl _).trans ih

/-- A snapshot rejects at most the counts of the type and a histogram of each index. -/
theorem length_rejected_le (source : StatisticsSource) (t : RecordType) :
    (p.context source t).snapshot.rejected.length ≤ p.catalog.indexes.length + 1 := by
  have hindexes : (p.catalog.plannableIndexes t.name).length ≤ p.catalog.indexes.length :=
    Nat.le_trans (List.length_filter_le _ _) (List.length_filter_le _ _)
  have hrejected := List.length_filterMap_le (StatisticsSnapshot.refused? source t)
    (p.catalog.plannableIndexes t.name)
  simp only [context, StatisticsSnapshot.gather, StatisticsSnapshot.foldl_addHistogram,
    List.length_append]
  cases StatisticsSnapshot.fetchTable source t with
  | ok table =>
    simp only [List.length_nil]
    omega
  | error e =>
    simp only [List.length_singleton]
    omega

/-! ## Selections -/

/-- How many answers are counted before a selection has failed. -/
def counted : Except PlanningError Selection → Nat
  | .ok _ => 1
  | .error _ => 0

theorem evicted_plans (fields : List (String × String)) : Plans s.monitor
    ((s.count fun m => { m with cacheEvictions := m.cacheEvictions + 1 }).event
      .planCacheEvicted fields).monitor 0 1 := by
  have hcount : Plans s.monitor
      (s.count fun m => { m with cacheEvictions := m.cacheEvictions + 1 }).monitor 0 1 :=
    ⟨rfl, rfl, Nat.le_refl _, rfl, count_grows (by simp [counters])⟩
  exact hcount.trans (event_plans rfl fields)

/-- A plan that was made is counted once, and once under its mode. -/
theorem made_plans (mode : SelectionMode) : Plans s.monitor (s.count fun m =>
    let m := { m with plansSelected := m.plansSelected + 1 }
    if mode = .costBased then { m with plansCostBased := m.plansCostBased + 1 }
    else { m with plansHeuristic := m.plansHeuristic + 1 }).monitor 1 1 := by
  by_cases hmode : mode = .costBased
  · simp only [PlannerState.count, Monitor.count, hmode, if_true]
    exact ⟨by simp only [answers]; omega, by simp only; omega, Nat.le_refl _, rfl,
      by simp [Grows, counters]⟩
  · simp only [PlannerState.count, Monitor.count, hmode, if_false]
    exact ⟨by simp only [answers]; omega, by simp only; omega, Nat.le_refl _, rfl,
      by simp [Grows, counters]⟩

theorem planAfresh_plans (source : StatisticsSource) (t : RecordType) (q : Query)
    (fingerprint : Fingerprint) (canonical : String) :
    Plans s.monitor (p.planAfresh source t q fingerprint canonical s).2.monitor
      (counted (p.planAfresh source t q fingerprint canonical s).1)
      (p.catalog.indexes.length + 4) := by
  rw [planAfresh]
  split
  · exact (Plans.refl _).mono (Nat.zero_le _)
  · rename_i prepared _
    have hreports := ((reportPrepared_plans (p := p) (s := s) prepared).trans
      (reportRejected_plans (p.context source t).snapshot.rejected)).trans
        (reportOverlong_plans (p := p) ((p.context source t).generate prepared q).2)
    have hrejected := length_rejected_le (p := p) source t
    simp only
    -- the reports so far are one state, whatever they say
    generalize p.reportOverlong _ _ = reported at hreports ⊢
    split
    · exact hreports.mono (by omega)
    · rename_i plan mode hchoice
      split
      · exact (((hreports.trans (evicted_plans _)).trans (made_plans mode)).trans
          (reportSelection_plans q _)).mono (by omega)
      · exact ((hreports.trans (made_plans mode)).trans (reportSelection_plans q _)).mono (by omega)

/-- A look-up counts a hit, a miss, or a collision that is a miss too. -/
theorem planQuery_plans (source : StatisticsSource) (q : Query) (fingerprint : Fingerprint) :
    Plans s.monitor (p.planQuery source q fingerprint s).2.monitor
      (counted (p.planQuery source q fingerprint s).1) (p.catalog.indexes.length + 5) := by
  have hhit : Plans s.monitor
      (s.count fun m => { m with cacheHits := m.cacheHits + 1 }).monitor 1 1 :=
    ⟨by simp only [answers, PlannerState.count, Monitor.count]; omega, rfl, Nat.le_refl _, rfl,
      count_grows (by simp [counters])⟩
  have hmiss : Plans s.monitor
      (s.count fun m => { m with cacheMisses := m.cacheMisses + 1 }).monitor 0 1 :=
    ⟨rfl, rfl, Nat.le_succ _, rfl, count_grows (by simp [counters])⟩
  have hcollision : Plans s.monitor (s.count fun m =>
      { m with cacheCollisions := m.cacheCollisions + 1, cacheMisses := m.cacheMisses + 1 }).monitor
      0 1 :=
    ⟨rfl, rfl, by simp only [PlannerState.count, Monitor.count]; omega, rfl,
      count_grows (by simp [counters])⟩
  rw [planQuery]
  -- an invalid query is refused, and a valid one is answered by the cache or planned afresh
  split
  · exact (Plans.refl _).mono (Nat.zero_le _)
  · simp only
    split
    · exact ((hhit.trans (event_plans rfl _)).trans (reportSelection_plans q _)).mono (by omega)
    · refine (Plans.prepend (k := 1) ?_ (planAfresh_plans source _ q fingerprint _)).mono ?_
      · exact hmiss.trans (event_plans rfl _)
      · omega
    · refine (Plans.prepend (k := 1) ?_ (planAfresh_plans source _ q fingerprint _)).mono ?_
      · exact hcollision.trans (event_plans rfl _)
      · omega

/-- **A selection counts one answer,** whatever it comes to. -/
theorem select_plans (source : StatisticsSource) (q : Query) :
    Plans s.monitor (p.select source q s).2.monitor 1 (p.catalog.indexes.length + 6) := by
  have hfailed {s : PlannerState} : Plans s.monitor
      (s.count fun m => { m with planningFailures := m.planningFailures + 1 }).monitor 1 1 :=
    ⟨rfl, rfl, Nat.le_refl _, rfl, count_grows (by simp [counters])⟩
  have hbegin : Plans s.monitor
      (s.monitor.add (Scope.begin ⟨"PLANNING", [("record_type", q.recordType)]⟩)) 0 0 :=
    plans_add rfl
  have hplan : ∀ s : PlannerState, Plans s.monitor (p.plan source q s).2.monitor
      (counted (p.plan source q s).1) (p.catalog.indexes.length + 5) := by
    intro s
    rw [plan]
    split
    · exact (Plans.refl _).mono (Nat.zero_le _)
    · exact planQuery_plans source q _
  have hplan := hbegin.prepend (hplan { s with
    monitor := s.monitor.add (Scope.begin ⟨"PLANNING", [("record_type", q.recordType)]⟩) })
  rw [select]
  simp only
  split
  · rename_i chosen s' heq
    rw [heq] at hplan
    exact (hplan.trans (plans_add rfl)).mono (by omega)
  · rename_i e s' heq
    rw [heq] at hplan
    exact ((hplan.trans hfailed).trans (plans_add rfl)).mono (by omega)

theorem explain_plans (source : StatisticsSource) (q : Query) :
    Plans s.monitor (p.explain source q s).2.monitor 1 (p.catalog.indexes.length + 6) :=
  select_plans source q

end Planner

end RecordLayer
