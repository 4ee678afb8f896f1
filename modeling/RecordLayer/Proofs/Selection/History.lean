import RecordLayer.Proofs.Candidates.Branches
import RecordLayer.Proofs.Candidates.Covering
import RecordLayer.Selection.Explanation

/-!
# Plans that are repeated from the cache

A planner is asked for selections and explanations, and told to forget what it remembers, in any
order and with statistics that change from call to call. What it answers from the cache is a plan
that it made for an earlier query, and that query asks for the same as the one that is answered.
This is known from the canonical texts alone: which texts share a fingerprint does not matter.

The invariant is `Remembers`: every entry of the cache holds a plan that was made since the
cache was last emptied, for a query with the text of the entry. Evictions and overwriting only
take entries away.
-/

namespace RecordLayer.Planner

variable {p : Planner} {q : Query} {s s' : PlannerState}

/-! ## Histories -/

/-- A call on a planner. The statistics may differ from call to call. -/
inductive Call
  | select (source : StatisticsSource) (q : Query)
  | explain (source : StatisticsSource) (q : Query)
  | invalidate

/-- What a history of calls leaves behind. -/
structure Past where
  /-- The plans that were made since the cache was last emptied, each with its query. -/
  made : List (Query × Plan)
  state : PlannerState

/-- Takes down a plan that was made for a query, unless it is a repetition. -/
def noted (made : List (Query × Plan)) (q : Query) :
    Except PlanningError Selection → List (Query × Plan)
  | .ok chosen => if chosen.cacheHit then made else made ++ [(q, chosen.plan)]
  | .error _ => made

/-- What one more call leaves behind. -/
def call (p : Planner) (past : Past) : Call → Past
  | .select source q =>
    let (answer, state) := p.select source q past.state
    ⟨noted past.made q answer, state⟩
  | .explain source q =>
    let (report, state) := p.explain source q past.state
    ⟨noted past.made q report.outcome, state⟩
  | .invalidate => ⟨[], invalidateCache past.state⟩

/-- What a planner with a cache of its own is left with after some calls. -/
def after (p : Planner) (monitor : Monitor) (calls : List Call) : Past :=
  calls.foldl p.call ⟨[], ⟨.ofCapacity p.settings.cacheCapacity, monitor⟩⟩

/-! ## What is remembered -/

/-- The plan suits the query, and its covering scans store the fields that the caller reads. -/
def Serves (p : Planner) (q : Query) (plan : Plan) : Prop :=
  p.Suits q plan ∧ ∀ t, q.validate p.catalog = .ok t → plan.Covers t q.requiredFields

theorem serves_of_mem_generate (hc : p.catalog.Sound) (hs : p.settings.validate = .ok ())
    {t : RecordType} {source : StatisticsSource} {prepared : Filter.Prepared} {plan : Plan}
    (hvalid : q.validate p.catalog = .ok t)
    (hprepared : q.filter.prepare p.settings.limits = .ok prepared)
    (h : plan ∈ ((p.context source t).generate prepared q).1) : p.Serves q plan := by
  refine ⟨suits_of_mem_generate hc hs hvalid hprepared h, fun t' hvalid' => ?_⟩
  obtain rfl : t = t' := Except.ok.inj (hvalid.symm.trans hvalid')
  exact PlanningContext.generate_covers h

/-- A plan that serves a query serves every valid query that asks for the same. -/
theorem Serves.of_alike {q' : Query} {t : RecordType} {plan : Plan} (h : p.Serves q plan)
    (halike : q.Alike q') (hvalid : q'.validate p.catalog = .ok t) : p.Serves q' plan := by
  refine ⟨h.1.of_canonical halike.canonical_eq hvalid, fun t' hvalid' => ?_⟩
  obtain ⟨u, base, image, hvalid₀, -⟩ := h.1
  obtain rfl : u = t' := recordType_unique halike.recordType hvalid₀ hvalid'
  exact (h.2 u hvalid₀).congr halike.fields

/-- What is known of a text in the cache and its plan. -/
def MadeFor (p : Planner) (made : List (Query × Plan)) (canonical : String) (plan : Plan) : Prop :=
  ∃ q : Query, q.canonical = canonical ∧ (q, plan) ∈ made ∧ p.Serves q plan

/-- Every plan in the cache was made for a query with the text of its entry. -/
def Remembers (p : Planner) (past : Past) : Prop :=
  past.state.cache.Holds (p.MadeFor past.made)

theorem mem_noted {made : List (Query × Plan)} {m : Query × Plan} (h : m ∈ made) (q : Query)
    (answer : Except PlanningError Selection) : m ∈ noted made q answer := by
  cases answer with
  | error e => exact h
  | ok chosen =>
    rw [noted]
    split
    · exact h
    · exact List.mem_append_left _ h

theorem MadeFor.mono {made made' : List (Query × Plan)} (h : ∀ m ∈ made, m ∈ made')
    {canonical : String} {plan : Plan} (hmade : p.MadeFor made canonical plan) :
    p.MadeFor made' canonical plan := by
  obtain ⟨q, heq, hmem, hserves⟩ := hmade
  exact ⟨q, heq, h _ hmem, hserves⟩

/-- **A selection keeps what is known of the cache,** and whatever it answers serves the query. A
plan that it repeats was made for a query that asks for the same. -/
theorem remembers_select (hc : p.catalog.Sound) (hs : p.settings.validate = .ok ())
    {made : List (Query × Plan)} (h : s.cache.Holds (p.MadeFor made)) (source : StatisticsSource)
    (q : Query) : (p.select source q s).2.cache.Holds
        (p.MadeFor (noted made q (p.select source q s).1)) ∧
      ∀ chosen, (p.select source q s).1 = .ok chosen → p.Serves q chosen.plan ∧
        (chosen.cacheHit = true → ∃ q₀ : Query, (q₀, chosen.plan) ∈ made ∧ q₀.Alike q) := by
  have hkept : s.cache.Holds (p.MadeFor (noted made q (p.select source q s).1)) := fun e he =>
    (h e he).mono fun _ hm => mem_noted hm _ _
  -- a plan that is made now is taken down, so it too has its query
  obtain ⟨hcache, hanswer⟩ := (select_selects p source q s).holds hkept
    fun hok hhit hvalid hprepared hcandidate => ⟨q, rfl, by simp [noted, hok, hhit],
      serves_of_mem_generate hc hs hvalid hprepared hcandidate⟩
  refine ⟨hcache, fun chosen hok => ?_⟩
  obtain ⟨⟨t, hvalid⟩, q₀, heq, hmem, hserves⟩ := hanswer chosen hok
  have halike := Query.canonical_inj heq
  refine ⟨hserves.of_alike halike hvalid, fun hhit => ⟨q₀, ?_, halike⟩⟩
  rwa [hok, noted, if_pos hhit] at hmem

theorem remembers_call (hc : p.catalog.Sound) (hs : p.settings.validate = .ok ()) {past : Past}
    (h : p.Remembers past) (c : Call) : p.Remembers (p.call past c) := by
  cases c with
  | select source q => exact (remembers_select hc hs h source q).1
  | explain source q => exact (remembers_select hc hs h source q).1
  | invalidate => exact PlanCache.Holds.clear _

theorem remembers_after (hc : p.catalog.Sound) (hs : p.settings.validate = .ok ())
    (monitor : Monitor) (calls : List Call) : p.Remembers (p.after monitor calls) := by
  have hstart : p.Remembers ⟨[], ⟨.ofCapacity p.settings.cacheCapacity, monitor⟩⟩ :=
    PlanCache.holds_ofCapacity _ _
  rw [after]
  generalize (⟨[], ⟨.ofCapacity p.settings.cacheCapacity, monitor⟩⟩ : Past) = past at hstart ⊢
  induction calls generalizing past with
  | nil => exact hstart
  | cons c calls ih => exact ih _ (remembers_call hc hs hstart c)

/-! ## Transparency -/

/-- **The cache is transparent.** After any calls, with any fingerprints, a plan that is selected
for a query means its filter, has its limit, and covers the fields that it requires. A plan from the
cache was made for a query that asks for the same; and while the cache holds the plan of another
text under the fingerprint of the query, no answer comes from the cache. -/
theorem select_transparent (hc : Catalog.Registered p.catalog) (hs : p.settings.validate = .ok ())
    (monitor : Monitor) (calls : List Call) {source : StatisticsSource} {q : Query}
    {chosen : Selection}
    (h : p.select source q (p.after monitor calls).state = (.ok chosen, s')) :
    ∃ t, q.validate p.catalog = .ok t ∧
      (chosen.plan.Means q.filter ∧ chosen.plan.LimitedBy q.limit ∧
        chosen.plan.Covers t q.requiredFields) ∧
      (chosen.cacheHit = true → ∃ q₀ : Query,
        (q₀, chosen.plan) ∈ (p.after monitor calls).made ∧ q₀.Alike q) ∧
      ((∃ e, PlanCache.entry? (p.after monitor calls).state.cache (p.digest q.canonical) = some e ∧
        e.canonical ≠ q.canonical) → chosen.cacheHit = false) := by
  have hselects := select_selects p source q (p.after monitor calls).state
  have hanswer := (remembers_select hc.sound hs (remembers_after hc.sound hs monitor calls) source
    q).2 chosen (by rw [h])
  rw [h] at hselects
  obtain ⟨⟨⟨t, base, image, hvalid, hplan, hfits, hmeans, -⟩, hcovers⟩, hrepeated⟩ := hanswer
  refine ⟨t, hvalid, ⟨?_, ?_, hcovers t hvalid⟩, hrepeated, ?_⟩
  · intro value rankOf
    rw [hplan, PlanningContext.matchingFilter_withLimit, hmeans]
  · exact hplan ▸ hfits.limitedBy q.limit
  · rintro ⟨e, hentry, hother⟩
    exact hselects.made_of_collision hentry hother

end RecordLayer.Planner

/-! ## A query that is repeated in another order -/

namespace RecordLayer.Visits

/-- The query for the visitors of age two or one. -/
def youngAgain : Query :=
  { recordType := "t", filter := .any [.compare "age" .eq (.int 2), .compare "age" .eq (.int 1)] }

theorem young_alike : young.Alike youngAgain :=
  ⟨rfl, .permAny (List.Perm.swap ..), rfl, trivial⟩

theorem youngAgain_valid : youngAgain.validate catalog = .ok visitor := by
  refine Query.validate_eq_ok.2 ⟨rfl, nofun, ?_, ?_⟩
  · simp [youngAgain, Filter.fields, Filter.nodes, Filter.nodesOfList, Text.mem_sortDistinct]
    rfl
  · simp [youngAgain, Filter.rankFields, Filter.nodes, Filter.nodesOfList, Text.mem_sortDistinct]

open Planner in
theorem select_transparent_young : Catalog.Registered planner.catalog ∧
    planner.settings.validate = .ok () ∧
    ∃ chosen s', planner.select .none youngAgain
        (planner.after {} [.explain .none young]).state = (.ok chosen, s') ∧
      chosen.cacheHit = true ∧
      ∃ t, youngAgain.validate planner.catalog = .ok t ∧
        (chosen.plan.Means youngAgain.filter ∧ chosen.plan.LimitedBy youngAgain.limit ∧
          chosen.plan.Covers t youngAgain.requiredFields) ∧
        (chosen.cacheHit = true → ∃ q₀ : Query,
          (q₀, chosen.plan) ∈ (planner.after {} [.explain .none young]).made ∧
            q₀.Alike youngAgain) ∧
        ((∃ e, PlanCache.entry? (planner.after {} [.explain .none young]).state.cache
            (planner.digest youngAgain.canonical) = some e ∧
          e.canonical ≠ youngAgain.canonical) → chosen.cacheHit = false) := by
  obtain ⟨made, s, hmade, -⟩ := exists_select_young
  -- nothing is cached before the first selection, so it is made afresh
  have hfresh : made.cacheHit = false := by
    have hselects := select_selects planner .none young fresh
    rw [hmade] at hselects
    generalize s.cache = after at hselects
    cases hselects with
    | repeated _ hlookup => cases hlookup
    | made _ _ _ _ _ hhit => exact hhit
  obtain ⟨chosen, s', hchosen, hhit, -⟩ := exists_select_again .none hmade hfresh
    young_alike.canonical_eq rfl youngAgain_valid
  have hstate : (planner.after {} [.explain .none young]).state = s := by
    show (planner.select .none young fresh).2 = s
    rw [hmade]
  rw [← hstate] at hchosen
  exact ⟨catalog_registered, rfl, chosen, s', hchosen, hhit,
    select_transparent catalog_registered rfl {} [.explain .none young] hchosen⟩

end RecordLayer.Visits
