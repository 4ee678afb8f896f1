import RecordLayer.Proofs.Candidates.Generation
import RecordLayer.Proofs.Catalog
import RecordLayer.Proofs.PlanCache
import RecordLayer.Proofs.Query
import RecordLayer.Selection

/-!
# Selected plans suit the query

Whatever was planned before, from whatever statistics, and whatever was forgotten in between, a plan
that is selected for a query is one that planning makes for this very query: it fits the record
type, its matching filter means the query's filter, it has the query's limit, and it gives the
fields that the caller reads.

A plan from the cache was made for a query with the same canonical text. Such a query asks for the
same, so its plans suit both.
-/

namespace RecordLayer

namespace Planner

variable {p : Planner} {q q' : Query} {plan : Plan} {s s' : PlannerState}

/-- The plan is one that planning can make for the query. -/
def Suits (p : Planner) (q : Query) (plan : Plan) : Prop :=
  ∃ (t : RecordType) (base : Plan) (image : Record → Record), q.validate p.catalog = .ok t ∧
    plan = base.withLimit q.limit ∧ base.Fits p.catalog t image ∧
    (∀ value rankOf, base.matchingFilter.holds value rankOf = q.filter.holds value rankOf) ∧
    t.Keeps q.requiredFields image

theorem keeps_of_requiresAlike {t : RecordType} {fields fields' : Option (List String)}
    {image : Record → Record} (h : Query.RequiresAlike fields fields') (hk : t.Keeps fields image) :
    t.Keeps fields' image := by
  cases fields with
  | none =>
    cases fields' with
    | none => exact hk
    | some _ => cases h
  | some fs =>
    cases fields' with
    | none => cases h
    | some fs' =>
      intro r hr f hf
      exact hk r hr f (hf.imp_right (h f).2)

/-- Valid queries for records of one name are for one record type. -/
theorem recordType_unique {c : Catalog} {t t' : RecordType} (hname : q.recordType = q'.recordType)
    (hvalid : q.validate c = .ok t) (hvalid' : q'.validate c = .ok t') : t = t' := by
  obtain ⟨ht, hlookup, -⟩ := Query.validate_spec hvalid
  obtain ⟨ht', hlookup', -⟩ := Query.validate_spec hvalid'
  rw [ht', ← hname, ← ht, hlookup] at hlookup'
  exact Option.some.inj hlookup'

/-- **A plan for a query suits every valid query with the same canonical text.** -/
theorem Suits.of_canonical {t : RecordType} (h : p.Suits q plan) (heq : q.canonical = q'.canonical)
    (hvalid : q'.validate p.catalog = .ok t) : p.Suits q' plan := by
  obtain ⟨htype, hfilter, hlimit, hfields⟩ := Query.canonical_inj heq
  obtain ⟨t', base, image, hvalid', rfl, hfits, hmeans, hkeeps⟩ := h
  obtain rfl : t' = t := recordType_unique htype hvalid' hvalid
  refine ⟨t', base, image, hvalid, by rw [hlimit], hfits, fun value rankOf => ?_,
    keeps_of_requiresAlike hfields hkeeps⟩
  rw [hmeans, hfilter.holds_eq]

/-- What the cache of a planner is known to hold: plans that suit the queries of their texts. -/
def CacheSuits (p : Planner) (s : PlannerState) : Prop :=
  s.cache.Holds fun canonical plan => ∃ q, q.canonical = canonical ∧ p.Suits q plan

/-! ## Reports do not touch the cache -/

theorem reportRejected_cache (s : PlannerState) (rejected : List StatisticsError) :
    (reportRejected s rejected).cache = s.cache := by
  unfold reportRejected
  induction rejected generalizing s with
  | nil => rfl
  | cons e rest ih => rw [List.foldl_cons, ih]; rfl

theorem reportOverlong_cache (p : Planner) (s : PlannerState) (lists : List (String × Nat)) :
    (p.reportOverlong s lists).cache = s.cache := by
  unfold reportOverlong
  induction lists generalizing s with
  | nil => rfl
  | cons list rest ih => rw [List.foldl_cons, ih]; rfl

theorem reportPrepared_cache (p : Planner) (s : PlannerState) (r : Filter.Prepared) :
    (p.reportPrepared s r).cache = s.cache := by
  unfold reportPrepared
  split <;> rfl

/-! ## Planning -/

theorem mem_of_choose {c : PlanningContext} {candidates : List Plan} {mode : SelectionMode}
    (h : choose? c candidates = (some plan, mode)) : plan ∈ candidates := by
  unfold choose? at h
  split at h <;> injection h with h <;> exact Plan.mem_of_best h

/-- What selecting a plan comes to: what is answered, and what the cache is left with. -/
inductive Selects (p : Planner) (source : StatisticsSource) (q : Query) (cache : PlanCache) :
    Except PlanningError Selection → PlanCache → Prop
  | refused (e : PlanningError) : Selects p source q cache (.error e) cache
  | repeated {t : RecordType} {e : CacheEntry} {chosen : Selection} {after : PlanCache}
    (hvalid : q.validate p.catalog = .ok t)
    (hlookup : cache.lookup (p.digest q.canonical) q.canonical = (.hit e, after))
    (hplan : chosen.plan = e.plan) (hhit : chosen.cacheHit = true) :
    Selects p source q cache (.ok chosen) after
  | made {t : RecordType} {prepared : Filter.Prepared} {chosen : Selection} (cost : QueryCost)
    (hvalid : q.validate p.catalog = .ok t)
    (hmiss : ∀ e, (cache.lookup (p.digest q.canonical) q.canonical).1 ≠ .hit e)
    (hprepared : q.filter.prepare p.settings.limits = .ok prepared)
    (hcandidate : chosen.plan ∈ ((p.context source t).generate prepared q).1)
    (hhit : chosen.cacheHit = false) :
    Selects p source q cache (.ok chosen)
      (cache.insert (p.digest q.canonical) q.canonical chosen.plan cost).2

theorem planAfresh_selects {t : RecordType} (hvalid : q.validate p.catalog = .ok t)
    (source : StatisticsSource) {cache : PlanCache} (hcache : s.cache = cache)
    (hmiss : ∀ e, (cache.lookup (p.digest q.canonical) q.canonical).1 ≠ .hit e) :
    p.Selects source q cache (p.planAfresh source t q (p.digest q.canonical) q.canonical s).1
      (p.planAfresh source t q (p.digest q.canonical) q.canonical s).2.cache := by
  unfold planAfresh
  cases hprepared : q.filter.prepare p.settings.limits with
  | error e => exact hcache ▸ .refused e
  | ok prepared =>
    -- the reports on the way leave the cache as it is
    have hreported : (p.reportOverlong (reportRejected (p.reportPrepared s prepared)
        (p.context source t).snapshot.rejected)
        ((p.context source t).generate prepared q).2).cache = cache := by
      rw [reportOverlong_cache, reportRejected_cache, reportPrepared_cache, hcache]
    dsimp only
    revert hreported
    generalize p.reportOverlong _ _ = reported
    intro hreported
    subst hreported
    split
    · exact .refused _
    · rename_i plan mode hchosen
      have hcandidate := mem_of_choose hchosen
      cases hevicted : (reported.cache.insert (p.digest q.canonical) q.canonical plan
        ((p.context source t).costModel.estimate plan)).1 <;>
        exact .made _ hvalid hmiss hprepared hcandidate rfl

theorem planQuery_selects (p : Planner) (source : StatisticsSource) (q : Query) (s : PlannerState) :
    p.Selects source q s.cache (p.planQuery source q (p.digest q.canonical) s).1
      (p.planQuery source q (p.digest q.canonical) s).2.cache := by
  unfold planQuery
  cases hvalid : q.validate p.catalog with
  | error e => exact .refused e
  | ok t =>
    have hkept : (∀ e, (s.cache.lookup (p.digest q.canonical) q.canonical).1 ≠ .hit e) →
        (s.cache.lookup (p.digest q.canonical) q.canonical).2 = s.cache :=
      PlanCache.lookup_of_not_hit
    dsimp only
    split
    · rename_i e cache hlookup
      exact .repeated hvalid hlookup rfl rfl
    -- nothing under the fingerprint, or the plan of another text: planned afresh either way
    · rename_i cache hlookup
      rw [hlookup] at hkept
      exact planAfresh_selects hvalid source (hkept nofun) (by rw [hlookup]; exact nofun)
    · rename_i f cache hlookup
      rw [hlookup] at hkept
      exact planAfresh_selects hvalid source (hkept nofun) (by rw [hlookup]; exact nofun)

/-- **Every answer is a refusal, a plan that is remembered for the text of the query, or one of its
candidates,** which is remembered from then on. -/
theorem select_selects (p : Planner) (source : StatisticsSource) (q : Query) (s : PlannerState) :
    p.Selects source q s.cache (p.select source q s).1 (p.select source q s).2.cache := by
  -- what is counted and logged on the way does not touch the cache
  have hplan : ∀ {s₁ s' : PlannerState} {answer : Except PlanningError Selection},
      p.plan source q s₁ = (answer, s') → s₁.cache = s.cache →
        p.Selects source q s.cache answer s'.cache := by
    intro s₁ s' answer heq hs₁
    unfold plan at heq
    split at heq
    · cases heq
      exact hs₁ ▸ .refused _
    · rename_i f hfingerprint
      obtain rfl : f = p.digest q.canonical := by
        obtain ⟨_, -, hf⟩ := exists_of_bind_eq_ok hfingerprint
        exact (Except.ok.inj hf).symm
      have hselects := planQuery_selects p source q s₁
      rwa [heq, hs₁] at hselects
  unfold select
  dsimp only
  split
  · rename_i chosen s' heq
    have hselects : p.Selects source q s.cache (.ok chosen) s'.cache := hplan heq rfl
    exact hselects
  · rename_i e s' heq
    have hselects : p.Selects source q s.cache (.error e) s'.cache := hplan heq rfl
    exact hselects

/-- An entry for another text under the fingerprint of the query is not answered with. -/
theorem Selects.made_of_collision {source : StatisticsSource} {cache after : PlanCache}
    {chosen : Selection} {e : CacheEntry} (h : p.Selects source q cache (.ok chosen) after)
    (hentry : cache.entry? (p.digest q.canonical) = some e) (hother : e.canonical ≠ q.canonical) :
    chosen.cacheHit = false := by
  cases h with
  | repeated _ hlookup =>
    exact absurd (congrArg Prod.fst hlookup) (PlanCache.not_hit_of_collision hentry hother _)
  | made _ _ _ _ _ hhit => exact hhit

/-- **What is known of every text and plan in the cache stays known, and is known of the answer,**
if a plan that is made for the query is known to be so. -/
theorem Selects.holds {P : String → Plan → Prop} {source : StatisticsSource}
    {cache after : PlanCache} {answer : Except PlanningError Selection}
    (hselects : p.Selects source q cache answer after) (h : cache.Holds P)
    (hmade : ∀ {t prepared chosen}, answer = .ok chosen → chosen.cacheHit = false →
      q.validate p.catalog = .ok t → q.filter.prepare p.settings.limits = .ok prepared →
      chosen.plan ∈ ((p.context source t).generate prepared q).1 → P q.canonical chosen.plan) :
    after.Holds P ∧ ∀ chosen, answer = .ok chosen →
      (∃ t, q.validate p.catalog = .ok t) ∧ P q.canonical chosen.plan := by
  cases hselects with
  | refused e => exact ⟨h, nofun⟩
  | repeated hvalid hlookup hplan hhit =>
    obtain ⟨hcache, hknown⟩ := PlanCache.Holds.lookup h (p.digest q.canonical) q.canonical
    rw [hlookup] at hcache hknown
    refine ⟨hcache, fun chosen hok => ?_⟩
    cases hok
    exact ⟨⟨_, hvalid⟩, hplan ▸ hknown _ rfl⟩
  | made cost hvalid hmiss hprepared hcandidate hhit =>
    have hknown := hmade rfl hhit hvalid hprepared hcandidate
    refine ⟨h.insert hknown _ cost, fun chosen hok => ?_⟩
    cases hok
    exact ⟨⟨_, hvalid⟩, hknown⟩

/-- A candidate of a valid query suits it. -/
theorem suits_of_mem_generate (hc : p.catalog.Sound) (hs : p.settings.validate = .ok ())
    {t : RecordType} {source : StatisticsSource} {prepared : Filter.Prepared}
    (hvalid : q.validate p.catalog = .ok t)
    (hprepared : q.filter.prepare p.settings.limits = .ok prepared)
    (h : plan ∈ ((p.context source t).generate prepared q).1) : p.Suits q plan := by
  obtain ⟨-, ht, hknown⟩ := Query.validate_spec hvalid
  have hready : (p.context source t).Ready := PlanningContext.ready hc ht hs
  obtain ⟨base, image, rfl, hbase, hkeeps⟩ :=
    PlanningContext.generate_fulfils hready hknown hprepared h
  exact ⟨t, base, image, hvalid, rfl, hbase.fits, hbase.means, hkeeps⟩

theorem select_outcome (hc : p.catalog.Sound) (hs : p.settings.validate = .ok ())
    (source : StatisticsSource) (q : Query) (h : p.CacheSuits s) :
    p.CacheSuits (p.select source q s).2 ∧
      ∀ chosen, (p.select source q s).1 = .ok chosen → p.Suits q chosen.plan := by
  obtain ⟨hcache, hanswer⟩ := (select_selects p source q s).holds h
    fun _ _ hvalid hprepared hcandidate =>
      ⟨q, rfl, suits_of_mem_generate hc hs hvalid hprepared hcandidate⟩
  refine ⟨hcache, fun chosen hok => ?_⟩
  obtain ⟨⟨t, hvalid⟩, q', heq, hsuits⟩ := hanswer chosen hok
  exact hsuits.of_canonical heq hvalid

/-- With nothing remembered the best of the candidates is selected. -/
theorem exists_select_of_choose {t : RecordType} {source : StatisticsSource}
    {prepared : Filter.Prepared} {mode : SelectionMode} (hcache : s.cache.entries = [])
    (hdepth : q.filter.checkDepth p.settings.maxDepth = .ok ())
    (hvalid : q.validate p.catalog = .ok t)
    (hprepared : q.filter.prepare p.settings.limits = .ok prepared)
    (hchosen : choose? (p.context source t) ((p.context source t).generate prepared q).1 =
      (some plan, mode)) :
    ∃ chosen s', p.select source q s = (.ok chosen, s') ∧ chosen.plan = plan := by
  have hafresh : ∀ s : PlannerState, ∃ chosen s', p.planAfresh source t q (p.digest q.canonical)
      q.canonical s = (.ok chosen, s') ∧ chosen.plan = plan := fun s => by
    unfold planAfresh
    simp only [hprepared, hchosen]
    exact ⟨_, _, rfl, rfl⟩
  -- nothing is cached, so the look-up misses and the plan is made afresh
  have hmiss : s.cache.lookup (p.digest q.canonical) q.canonical = (.miss, s.cache) := by
    rw [PlanCache.lookup, PlanCache.entry?, hcache]
    rfl
  have hfingerprint : p.fingerprint q = .ok (p.digest q.canonical) := by
    rw [fingerprint, hdepth]
    rfl
  unfold select Planner.plan
  simp only [hfingerprint, planQuery, hvalid, hmiss]
  generalize PlannerState.event _ Event.planCacheMiss _ = reported
  obtain ⟨chosen, s', hplan, heq⟩ := hafresh reported
  rw [hplan]
  exact ⟨chosen, _, rfl, heq⟩

/-- **A plan that was made for a query is repeated for every valid query with the same text.** -/
theorem exists_select_again {source : StatisticsSource} (source' : StatisticsSource)
    {chosen : Selection} {t : RecordType} (h : p.select source q s = (.ok chosen, s'))
    (hmade : chosen.cacheHit = false)
    (heq : q.canonical = q'.canonical)
    (hdepth : q'.filter.checkDepth p.settings.maxDepth = .ok ())
    (hvalid : q'.validate p.catalog = .ok t) :
    ∃ chosen' s'', p.select source' q' s' = (.ok chosen', s'') ∧ chosen'.cacheHit = true ∧
      chosen'.plan = chosen.plan := by
  have hselects := select_selects p source q s
  rw [h] at hselects
  obtain ⟨e, cache, hlookup, hplan⟩ : ∃ e cache, s'.cache.lookup (p.digest q'.canonical)
      q'.canonical = (.hit e, cache) ∧ e.plan = chosen.plan := by
    -- the first selection has left the plan in the cache, under the same text
    rw [← heq]
    generalize s'.cache = after at hselects
    cases hselects with
    | repeated _ _ _ hhit =>
      rw [hmade] at hhit
      cases hhit
    | made => exact PlanCache.lookup_insert _ _ _ _
  have hfingerprint : p.fingerprint q' = .ok (p.digest q'.canonical) := by
    rw [fingerprint, hdepth]
    rfl
  unfold select Planner.plan
  simp only [hfingerprint, planQuery, hvalid, hlookup]
  exact ⟨_, _, rfl, rfl, hplan⟩

/-! ## Histories -/

/-- The states that a planner can come to: by selections for any queries from any statistics, and by
forgetting what it remembers. -/
inductive Reaches (p : Planner) : PlannerState → Prop
  | start (monitor : Monitor) : Reaches p ⟨.ofCapacity p.settings.cacheCapacity, monitor⟩
  | select {s : PlannerState} (h : Reaches p s) (source : StatisticsSource) (q : Query) :
    Reaches p (p.select source q s).2
  | invalidate {s : PlannerState} (h : Reaches p s) : Reaches p (invalidateCache s)

theorem Reaches.cacheSuits (hc : p.catalog.Sound) (hs : p.settings.validate = .ok ())
    (h : p.Reaches s) : p.CacheSuits s := by
  induction h with
  | start monitor => exact PlanCache.holds_ofCapacity _ _
  | select _ source q ih => exact (select_outcome hc hs source q ih).1
  | invalidate _ _ => exact PlanCache.Holds.clear _

/-- **A plan that is selected for a query suits it,** whatever was planned before. -/
theorem Reaches.select_suits (h : p.Reaches s) (hc : p.catalog.Sound)
    (hs : p.settings.validate = .ok ()) {source : StatisticsSource} {q : Query} {chosen : Selection}
    (hchosen : p.select source q s = (.ok chosen, s')) : p.Suits q chosen.plan := by
  have houtcome := (select_outcome hc hs source q (h.cacheSuits hc hs)).2
  rw [hchosen] at houtcome
  exact houtcome chosen rfl

end Planner

end RecordLayer
