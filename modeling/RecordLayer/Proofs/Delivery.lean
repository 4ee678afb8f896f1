import RecordLayer.Proofs.Candidates.Orders
import RecordLayer.Proofs.Selection

/-!
# Selected plans deliver what the query asks for

A plan that is selected for a query, opened and drained over a committed state, gives the
stored records for which the query's filter holds, each once, or as many of them as the limit
allows. It gives whole records, or records that agree with the stored ones on the primary key
and the required fields.

That rests on the merging nodes of the plan: they have to stand above scans of indexes that are
settled behind what the scan binds. Over settled indexes every plan is like that. An index with the
primary key in front of other fields need not be settled, and the order that its scans declare is
then not the one in which they come. A merge that goes by it leaves records out: the last part has a
query over two records that gives only one of them.
-/

namespace RecordLayer

/-- The records are what the query asks for: images, keeping what the caller reads, of distinct
stored records for which the filter holds, all of them or as many as the limit allows. -/
def Query.DeliveredBy (q : Query) (t : RecordType) (rows out : List Record) : Prop :=
  ∃ (picked : List Record) (image : Record → Record),
    out = picked.map image ∧ t.Keeps q.requiredFields image ∧
    picked.Pairwise (fun a b => t.keyOf a ≠ t.keyOf b) ∧
    (∀ r ∈ picked, r ∈ rows ∧ q.filter.holds (t.valueOf r) (rankAmong t rows) = true) ∧
    match q.limit with
    | none => ∀ r ∈ rows, q.filter.holds (t.valueOf r) (rankAmong t rows) = true → r ∈ picked
    | some n => picked.length =
        min n (rows.countP fun r => q.filter.holds (t.valueOf r) (rankAmong t rows))

namespace Planner

open CursorNode

variable {p : Planner} {q : Query} {t : RecordType} {rows : List Record} {v : StoreView}
  {c : ExecutionContext} {base : Plan} {image : Record → Record}

/-- What a fitting plan for the query gives, under the query's limit. -/
theorem delivered_of_runs (h : v.Serves t rows) (hruns : base.Runs v t rows c image)
    (hmeans : ∀ value rankOf, base.matchingFilter.holds value rankOf = q.filter.holds value rankOf)
    (hkeeps : t.Keeps q.requiredFields image) :
    ∃ out, (base.withLimit q.limit).Yields c v out ∧ q.DeliveredBy t rows out := by
  obtain ⟨node, out, hbuild, hanswers, -⟩ := hruns
  have hquery := Plan.answers_congr hanswers fun r => hmeans (t.valueOf r) (rankAmong t rows)
  have hmem := hquery.mem
  have hkeys : out.Pairwise fun a b => t.keyOf a ≠ t.keyOf b :=
    List.Pairwise.imp_of_mem (fun {a b} ha hb hab heq =>
      hab (h.eq_of_keyOf ((hmem a).1 ha).1 ((hmem b).1 hb).1 heq)) hanswers.nodup
  unfold Query.DeliveredBy
  cases hlimit : q.limit with
  | none =>
    refine ⟨out.map image, Plan.yields_of_drains hbuild hanswers.drains, out, image, rfl, hkeeps,
      hkeys, fun r => (hmem r).1, fun r hr hholds => (hmem r).2 ⟨hr, hholds⟩⟩
  | some n =>
    have hlimited : c.build (.limit base n) = .ok (.limit node n) := by
      rw [ExecutionContext.build, hbuild]
      rfl
    refine ⟨(out.map image).take n, Plan.yields_of_drains hlimited (hanswers.drains.limit n),
      out.take n, image, (List.map_take ..).symm, hkeeps, hkeys.sublist (List.take_sublist _ _),
      fun r hr => (hmem r).1 (List.mem_of_mem_take hr), ?_⟩
    -- the records that match are those of `out`, in another order
    rw [List.length_take, List.countP_eq_length_filter, (hquery.perm h).length_eq]

theorem wellMerged_withLimit {catalog : Catalog} (limit : Option Nat) :
    (base.withLimit limit).WellMerged catalog t ↔ base.WellMerged catalog t := by
  cases limit with
  | none => exact .rfl
  | some n =>
    constructor
    · intro h
      cases h with
      | limit _ h => exact h
    · exact .limit n

/-- **A selected plan that is well merged delivers what the query asks for,** whatever was
planned before, from whatever statistics, over every committed state that can be reached; and
over settled indexes every selected plan is well merged. The bound on the number of records is
that of the ranks. -/
theorem select_delivers (hc : Catalog.Registered p.catalog) (hs : p.settings.validate = .ok ())
    {s s' : PlannerState} (hreaches : p.Reaches s) {source : StatisticsSource} {chosen : Selection}
    (hchosen : p.select source q s = (.ok chosen, s'))
    (ht : p.catalog.recordType? q.recordType = some t) :
    (chosen.plan.WellMerged p.catalog t →
      ∀ store : Store, store.Reachable p.catalog →
        (store.view.recordsOf t.name).length < UInt64.size →
        ∀ (consistency : Consistency) (requestId : String),
          ∃ c, ExecutionContext.create p.catalog q.recordType consistency requestId = .ok c ∧
            ∃ out, chosen.plan.Yields c store.view out ∧
              q.DeliveredBy t (store.view.recordsOf t.name) out) ∧
    ((∀ i ∈ p.catalog.plannableIndexes t.name, i.Settled p.catalog t) →
      chosen.plan.WellMerged p.catalog t) := by
  obtain ⟨t', base, image, hvalid, hplan, hfits, hmeans, hkeeps⟩ :=
    hreaches.select_suits hc.sound hs hchosen
  obtain ⟨hname, hlookup, -⟩ := Query.validate_spec hvalid
  have heq : t' = t := by
    rw [hname, ht] at hlookup
    exact (Option.some.inj hlookup).symm
  subst heq
  -- the limit stands on top of a plan that fits and means the filter; what runs is the plan below
  rw [hplan, wellMerged_withLimit]
  refine ⟨fun hmerged store hstore hcount consistency requestId => ?_, hfits.wellMerged⟩
  have hserves := hstore.serves hc.sound hlookup
  have hcatalog : store.view.catalog = p.catalog := (hstore.keeps hc.sound).1
  let c : ExecutionContext := { catalog := p.catalog, recordType := t', consistency, requestId }
  have hover : c.Over store.view t' := ⟨hcatalog.symm, rfl⟩
  rw [← hcatalog] at hfits hmerged
  have hruns : base.Runs store.view t' (store.view.recordsOf t'.name) c image :=
    hfits.runs hover hserves (hcatalog ▸ hc.sound) hcount hmerged
  exact ⟨c, by rw [ExecutionContext.create, ht], delivered_of_runs hserves hruns hmeans hkeeps⟩

end Planner

/-! ## A delivery that merges -/

namespace Visits

open PlanningContext

/-- A planner with the default settings. -/
def planner : Planner := { catalog, settings := {} }

/-- The planner before its first query. -/
def fresh : PlannerState := { cache := .ofCapacity planner.settings.cacheCapacity }

/-- The query for the visitors of age one or two. -/
def young : Query :=
  { recordType := "t", filter := .any [.compare "age" .eq (.int 1), .compare "age" .eq (.int 2)] }

/-- The scan of one age. -/
def ageScan (n : Int64) : IndexScan :=
  ⟨byAge, .keys { equal := [.int n] }, false, [.compare "age" .eq (.int n)]⟩

/-- The union of the scans of both ages, merged on the number. -/
def youngPlan : Plan :=
  .union [.indexScan (ageScan 1), .indexScan (ageScan 2)] (some "id") (some ["id"])

theorem young_valid : young.validate catalog = .ok visitor := by
  refine Query.validate_eq_ok.2 ⟨rfl, nofun, ?_, ?_⟩
  · simp [young, Filter.fields, Filter.nodes, Filter.nodesOfList, Text.mem_sortDistinct]
    rfl
  · simp [young, Filter.rankFields, Filter.nodes, Filter.nodesOfList, Text.mem_sortDistinct]

theorem exists_select_young : ∃ chosen s', planner.select .none young fresh = (.ok chosen, s') ∧
    chosen.plan = youngPlan := by
  obtain ⟨prepared, hprepared⟩ : ∃ prepared, young.filter.prepare planner.settings.limits =
    .ok prepared := ⟨_, rfl⟩
  have hchosen : Planner.choose? (planner.context .none visitor)
      ((planner.context .none visitor).generate prepared young).1 =
        (some youngPlan, .heuristic) := by
    cases hprepared
    decide +kernel
  exact Planner.exists_select_of_choose rfl rfl young_valid hprepared hchosen

theorem wellMerged_youngPlan : youngPlan.WellMerged catalog visitor := by
  have hsettled : byAge.Settled catalog visitor := Index.settled_of_single rfl
  refine .union _ (fun p hp => ?_) fun _ p hp => ?_ <;>
    rcases List.mem_cons.1 hp with rfl | hp
  · exact .indexScan _
  · rw [List.mem_singleton.1 hp]
    exact .indexScan _
  · exact .indexScan (.inr hsettled)
  · rw [List.mem_singleton.1 hp]
    exact .indexScan (.inr hsettled)

theorem select_delivers_young : Catalog.Registered planner.catalog ∧
    planner.settings.validate = .ok () ∧ planner.Reaches fresh ∧ store.Reachable planner.catalog ∧
    ∃ chosen s', planner.select .none young fresh = (.ok chosen, s') ∧
      chosen.plan.WellMerged planner.catalog visitor ∧
      ∃ c, ExecutionContext.create planner.catalog young.recordType .serializable "" = .ok c ∧
        ∃ out, chosen.plan.Yields c store.view out ∧
          young.DeliveredBy visitor (store.view.recordsOf visitor.name) out := by
  obtain ⟨chosen, s', hchosen, hplan⟩ := exists_select_young
  have hmerged : chosen.plan.WellMerged planner.catalog visitor := hplan ▸ wellMerged_youngPlan
  have hcount : (store.view.recordsOf visitor.name).length < UInt64.size := by
    rw [recordsOf_store]
    decide
  exact ⟨catalog_registered, rfl, .start {}, store_reachable, chosen, s', hchosen, hmerged,
    (Planner.select_delivers catalog_registered rfl (.start {}) hchosen rfl).1 hmerged store
      store_reachable hcount .serializable ""⟩

/-! ## A record that is lost -/

/-- The query for the visitors with a positive number and a positive age. -/
def both : Query :=
  { recordType := "t", filter := .all [.compare "id" .gt (.int 0), .compare "age" .gt (.int 0)] }

def idMatch : IndexMatch := ⟨scan, [0]⟩

def ageMatch : IndexMatch :=
  ⟨⟨byAge, .keys { lower := .excluded (.int 0) }, false, [.compare "age" .gt (.int 0)]⟩, [1]⟩

/-- The two scans in some order. -/
def InSomeOrder (scans : List IndexMatch) : Prop :=
  scans = [ageMatch, idMatch] ∨ scans = [idMatch, ageMatch]

theorem eq_or_eq_of_perm {α : Type} {a b : α} {l : List α} (h : l.Perm [a, b]) :
    l = [a, b] ∨ l = [b, a] := by
  obtain ⟨x, y, rfl⟩ : ∃ x y, l = [x, y] := by
    match l, h.length_eq with
    | [x, y], _ => exact ⟨x, y, rfl⟩
  have hx : x = a ∨ x = b := by simpa using h.mem_iff.1 (List.mem_cons_self : x ∈ [x, y])
  rcases hx with rfl | rfl
  · exact .inl (by rw [List.perm_singleton.1 ((List.perm_cons x).1 h)])
  · have hswap := (List.perm_cons x).1 (h.trans (List.Perm.swap x a []))
    exact .inr (by rw [List.perm_singleton.1 hswap])

/-- Which of the scans comes first depends on their estimates, which are floats. -/
theorem disjointScans_both :
    InSomeOrder ((planner.context .none visitor).disjointScans [ageMatch, idMatch]) := by
  have hsized := List.mergeSort_perm (([ageMatch, idMatch].filter fun m =>
    !m.scan.bounds.isEmptyWindow).map fun m =>
      (((planner.context .none visitor).costModel.estimate (.indexScan m.scan)).rows, m))
    fun a b => a.1 ≤ b.1
  rw [PlanningContext.disjointScans, InSomeOrder]
  rcases eq_or_eq_of_perm hsized with hsorted | hsorted <;> rw [hsorted]
  · exact .inl rfl
  · exact .inr rfl

theorem exists_select_both : ∃ chosen s', planner.select .none both fresh = (.ok chosen, s') ∧
    ∃ scans, InSomeOrder scans ∧ chosen.plan =
      .intersection (scans.map fun m => .indexScan m.scan) (some ["age", "id"]) := by
  obtain ⟨prepared, hprepared⟩ : ∃ prepared, both.filter.prepare planner.settings.limits =
    .ok prepared := ⟨_, rfl⟩
  have hvalid : both.validate planner.catalog = .ok visitor := by
    refine Query.validate_eq_ok.2 ⟨rfl, nofun, ?_, ?_⟩
    · simp [both, Filter.fields, Filter.nodes, Filter.nodesOfList, Text.mem_sortDistinct]
      exact ⟨rfl, rfl⟩
    · simp [both, Filter.rankFields, Filter.nodes, Filter.nodesOfList, Text.mem_sortDistinct]
  have hmatches : (planner.context .none visitor).indexes.filterMap
      (matchIndex? both.filter.normalize.conjuncts) = [ageMatch, idMatch] := rfl
  have hscans := disjointScans_both
  have hmerge : (planner.context .none visitor).intersectionPlan? both.filter.normalize.conjuncts
      [ageMatch, idMatch] = some (.intersection (((planner.context .none visitor).disjointScans
        [ageMatch, idMatch]).map fun m => .indexScan m.scan) (some ["age", "id"])) := by
    rw [intersectionPlan?]
    -- the merge key is the same for either order of the scans
    rcases hscans with h | h <;> rw [h] <;> decide +kernel
  generalize (planner.context .none visitor).disjointScans [ageMatch, idMatch] = scans at *
  have hbest : Planner.choose? (planner.context .none visitor)
      ((planner.context .none visitor).generate prepared both).1 =
        (some (.intersection (scans.map fun m => .indexScan m.scan) (some ["age", "id"])),
          .heuristic) := by
    cases hprepared
    unfold PlanningContext.generate PlanningContext.indexPlans
    dsimp only
    rw [hmatches, hmerge]
    rcases hscans with rfl | rfl <;> decide +kernel
  obtain ⟨chosen, s', hchosen, hplan⟩ :=
    Planner.exists_select_of_choose (s := fresh) rfl rfl hvalid hprepared hbest
  exact ⟨chosen, s', hchosen, scans, hscans, hplan⟩

/-- **The intersection of the scans gives one of the two visitors only.** -/
theorem both_not_delivered : Catalog.Registered planner.catalog ∧
    planner.settings.validate = .ok () ∧ planner.Reaches fresh ∧ store.Reachable planner.catalog ∧
    ∃ chosen s', planner.select .none both fresh = (.ok chosen, s') ∧
      ¬∃ c, ExecutionContext.create planner.catalog both.recordType .serializable "" = .ok c ∧
        ∃ out, chosen.plan.Yields c store.view out ∧
          both.DeliveredBy visitor (store.view.recordsOf visitor.name) out := by
  obtain ⟨chosen, s', hchosen, scans, hscans, hplan⟩ := exists_select_both
  refine ⟨catalog_registered, rfl, .start {}, store_reachable, chosen, s', hchosen, ?_⟩
  rintro ⟨c, hcreate, out, hyields, picked, image, hout, -, -, -, hall⟩
  obtain rfl : c = ⟨catalog, visitor, .serializable, ""⟩ := by
    cases hcreate
    rfl
  have hfirst : out = [⟨[.int 1, .int 2]⟩] := by
    rw [hplan] at hyields
    refine hyields.eq_firstRun.trans ?_
    rcases hscans with rfl | rfl <;> decide +kernel
  -- both visitors match, so both would have been picked
  have hmatch : ∀ r ∈ stored, ∀ rankOf, both.filter.holds (visitor.valueOf r) rankOf = true := by
    intro r hr rankOf
    rcases List.mem_cons.1 hr with rfl | hr
    · rfl
    · rw [List.mem_singleton.1 hr]
      rfl
  have hpicked : ∀ r ∈ stored, r ∈ picked := fun r hr =>
    hall r (by rw [recordsOf_store]; exact hr) (hmatch r hr _)
  have hlength : picked.length = 1 := by
    have hlength := congrArg List.length (hout.symm.trans hfirst)
    simpa using hlength
  obtain ⟨x, rfl⟩ := List.length_eq_one_iff.1 hlength
  have hone := hpicked ⟨[.int 1, .int 2]⟩ (by decide)
  have htwo := hpicked ⟨[.int 2, .int 1]⟩ (by decide)
  rw [List.mem_singleton] at hone htwo
  rw [← hone] at htwo
  cases htwo

end Visits

end RecordLayer
