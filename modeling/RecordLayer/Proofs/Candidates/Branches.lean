import RecordLayer.Proofs.Delivery

/-!
# Unions stand for disjunctions, branch by branch

A union in a candidate replaces a disjunction of the filter, and each of its children one
branch: the child means just that branch, and if the child contains a union itself, that one
replaces a disjunction of the branch in the same way. `Plan.Carries` follows a plan and a filter
down side by side.

That the whole plan means the whole filter is known for candidates and for plans of branches alike.
What is added here is the shape: every way to make a plan by index leaves unions out, except for the
one that puts the others of the conjuncts as a residual on the union over one of them.
-/

namespace RecordLayer

namespace Plan

/-- The output of the plan, limits aside, are the records for which the filter holds, whatever the
ranks of values are. -/
def Means (p : Plan) (f : Filter) : Prop :=
  ∀ (value : String → Value) (rankOf : String → Value → UInt64),
    p.matchingFilter.holds value rankOf = f.holds value rankOf

/-- No union stands anywhere in the plan. -/
def Plain (p : Plan) : Prop :=
  ∀ (children : List Plan) (dedup : Option String) (merge : Option (List String)),
    ¬(Plan.union children dedup merge).IsPartOf p

mutual

/-- The plan means the filter, and at every depth each child of a union in it means a branch of a
disjunction: the disjunction is one of the conjuncts of what the plan around the union means. -/
inductive Carries : Plan → Filter → Prop
  | plain {p : Plan} {f : Filter} (hmeans : p.Means f) (hplain : p.Plain) : Carries p f
  | union {p : Plan} {f : Filter} {children : List Plan} {dedup : Option String}
    {merge : Option (List String)} {branches : List Filter} (hmeans : p.Means f)
    (hpath : p.accessPath = .union children dedup merge) (hbranches : .any branches ∈ f.conjuncts)
    (hchildren : CarriesEach children branches) : Carries p f

/-- The plans carry the filters, one by one. -/
inductive CarriesEach : List Plan → List Filter → Prop
  | nil : CarriesEach [] []
  | cons {p : Plan} {f : Filter} {plans : List Plan} {filters : List Filter} (h : Carries p f)
    (hrest : CarriesEach plans filters) : CarriesEach (p :: plans) (f :: filters)

end

/-- The plan is a union whose children carry these branches. -/
def UnionCarries (p : Plan) (branches : List Filter) : Prop :=
  ∃ children dedup merge, p = .union children dedup merge ∧ CarriesEach children branches

/-! ## Plans without unions -/

theorem plain_fullScan (recordType : String) : (Plan.fullScan recordType).Plain := by
  intro children dedup merge h
  cases h

theorem plain_indexScan (scan : IndexScan) : (Plan.indexScan scan).Plain := by
  intro children dedup merge h
  cases h

theorem plain_inJoin (field : String) (values : List Value) (index : Index) (batchSize : Nat) :
    (Plan.inJoin field values index batchSize).Plain := by
  intro children dedup merge h
  cases h

theorem plain_intersection {children : List Plan} (h : ∀ p ∈ children, p.Plain)
    (merge : Option (List String)) : (Plan.intersection children merge).Plain := by
  intro children' dedup merge' hpart
  cases hpart with
  | intersection _ hp hpart => exact h _ hp _ _ _ hpart

theorem Plain.withResidual {p : Plan} (h : p.Plain) (residual : Filter) :
    (p.withResidual residual).Plain := by
  intro children dedup merge hpart
  unfold Plan.withResidual at hpart
  split at hpart
  · exact h _ _ _ hpart
  · cases hpart with
    | filter _ hpart => exact h _ _ _ hpart

theorem accessPath_withResidual (p : Plan) (residual : Filter) :
    (p.withResidual residual).accessPath = p.accessPath := by
  unfold Plan.withResidual
  split
  · rfl
  · rw [accessPath]

/-- A union over one of the conjuncts, under a residual, carries the filter that it means. -/
theorem UnionCarries.carries {p : Plan} {branches : List Filter} (h : p.UnionCarries branches)
    {f residual : Filter} (hmeans : (p.withResidual residual).Means f)
    (hbranches : .any branches ∈ f.conjuncts) : (p.withResidual residual).Carries f := by
  obtain ⟨children, dedup, merge, rfl, hchildren⟩ := h
  have hpath : ((Plan.union children dedup merge).withResidual residual).accessPath =
      .union children dedup merge := accessPath_withResidual _ _
  exact .union hmeans hpath hbranches hchildren

end Plan

namespace PlanningContext

variable {c : PlanningContext} {conjuncts : List Filter} {p : Plan}

/-! ## Plans by index -/

theorem plain_scanPlan (required : Option (List String)) (m : IndexMatch) :
    (c.scanPlan conjuncts required m).Plain :=
  (Plan.plain_indexScan _).withResidual _

/-- **A plan by index that means a filter carries it,** if the unions carry its disjunctions: either
it has no union, or it is the union for one conjunct under the residual of the others. -/
theorem Made.carries {f : Filter} {required : Option (List String)}
    (h : c.Made f.conjuncts required p) (hmeans : p.Means f)
    (hunions : ∀ g ∈ f.conjuncts, ∀ q, c.conjunctUnion? g = some q →
      ∃ branches, g = .any branches ∧ q.UnionCarries branches) : p.Carries f := by
  cases h with
  | point | scan => exact .plain hmeans (plain_scanPlan required _)
  | lookUps => exact .plain hmeans ((Plan.plain_inJoin _ _ _ _).withResidual _)
  | intersection =>
    refine .plain hmeans ((Plan.plain_intersection (fun q hq => ?_) _).withResidual _)
    obtain ⟨m, -, rfl⟩ := List.mem_map.1 hq
    exact Plan.plain_indexScan _
  | union hi hq =>
    have hg := List.mem_of_getElem? hi
    obtain ⟨branches, rfl, hcarries⟩ := hunions _ hg _ hq
    exact hcarries.carries hmeans hg

/-! ## Branches -/

/-- The children of a union are the plans of its branches, in their order. -/
theorem carriesEach_of_map {plan? : Filter → Option Plan} {branches : List Filter}
    (hbranch : ∀ f ∈ branches, ∀ q, plan? f = some q → q.Carries f) :
    ∀ {children : List Plan}, branches.map plan? = children.map some →
      Plan.CarriesEach children branches := by
  induction branches with
  | nil =>
    intro children h
    rw [List.map_nil, eq_comm, List.map_eq_nil_iff] at h
    rw [h]
    exact .nil
  | cons f rest ih =>
    intro children h
    cases children with
    | nil => cases h
    | cons q others =>
      obtain ⟨hq, hrest⟩ := List.cons.inj h
      refine .cons (hbranch f (by simp) q hq) (ih (fun g hg => ?_) hrest)
      exact hbranch g (List.mem_cons_of_mem _ hg)

theorem unionPlan_carries {branches : List Filter} {plan? : Filter → Option Plan}
    (hbranch : ∀ f ∈ branches, ∀ q, plan? f = some q → q.Carries f)
    (h : c.unionPlan? (branches.map plan?) = some p) : p.UnionCarries branches := by
  obtain ⟨children, -, hchildren, rfl⟩ := unionPlan_eq_some h
  exact ⟨children, _, _, rfl, carriesEach_of_map hbranch hchildren⟩

theorem branch_means (hc : c.Ready) {f : Filter} (hknown : c.Knows f)
    (h : c.branchPlan? f = some p) : p.Means f :=
  ((branch_fulfils hc f hknown).1 p h).means

/-- **The plan for a branch carries it,** and the children of the union over a disjunction carry its
branches. -/
theorem branch_carries (hc : c.Ready) (f : Filter) (hknown : c.Knows f) :
    (∀ q, c.branchPlan? f = some q → q.Carries f) ∧
      ∀ q, c.conjunctUnion? f = some q →
        ∃ branches, f = .any branches ∧ q.UnionCarries branches := by
  -- the unions inside a plan stand for parts of what the plan means
  refine branch_induction (B := fun g q => q.Carries g)
    (U := fun g q => ∃ branches, g = .any branches ∧ q.UnionCarries branches)
    (fun _ => Filter.Over.child_all) (fun _ => Filter.Over.child_any)
    (fun g q hg hunions hq => ?_) (fun branches q _ hbranches hq => ?_) f hknown
  · exact (made_of_branchPlan hq).carries (branch_means hc hg hq) hunions
  · exact ⟨branches, rfl, unionPlan_carries hbranches hq⟩

/-! ## Candidates -/

theorem union_carries (hc : c.Ready) {g : Filter} (hknown : c.Knows g)
    (h : c.conjunctUnion? g = some p) : p.Carries g := by
  have hmeans : p.Means g := ((branch_fulfils hc g hknown).2 p h).means
  obtain ⟨branches, rfl, children, dedup, merge, rfl, hchildren⟩ :=
    (branch_carries hc g hknown).2 p h
  exact .union hmeans rfl (by simp [Filter.conjuncts]) hchildren

/-- Every candidate carries the normal form of the filter or its disjunctive form. -/
theorem generate_carries (hc : c.Ready) {q : Query} (hknown : c.Knows q.filter)
    {limits : Filter.Limits} {prepared : Filter.Prepared}
    (hprepared : q.filter.prepare limits = .ok prepared) (h : p ∈ (c.generate prepared q).1) :
    ∃ base : Plan, p = base.withLimit q.limit ∧ (base.Carries prepared.filter ∨
      ∃ g, prepared.expanded = some g ∧ base.Carries g) := by
  obtain ⟨hnormal, hexpanded⟩ := Filter.prepare_spec hprepared
  have hknownNormal : c.Knows prepared.filter := hnormal ▸ Filter.normalize_over hknown
  obtain ⟨base, rfl, hmade | ⟨-, rfl⟩ | ⟨g, hg, hunion⟩⟩ := generate_cases h
  · obtain ⟨image, hplan, -⟩ := hmade.fulfils_filter hc hknownNormal
    refine ⟨base, rfl, .inl (hmade.carries hplan.means fun g hg => ?_)⟩
    exact (branch_carries hc g (conjuncts_known hknownNormal g hg)).2
  · have hplan := fullScan_fulfils hknownNormal
    exact ⟨_, rfl, .inl (.plain hplan.means ((Plan.plain_fullScan _).withResidual _))⟩
  · have hknows : c.Knows g :=
      Filter.disjunctive_over (hexpanded g hg) (Filter.normalize_over hknown)
    exact ⟨base, rfl, .inr ⟨g, hg, union_carries hc hknows hunion⟩⟩

theorem matchingFilter_withLimit (p : Plan) (limit : Option Nat) :
    (p.withLimit limit).matchingFilter = p.matchingFilter := by
  cases limit with
  | none => rfl
  | some n => rw [Plan.withLimit, Plan.matchingFilter]

/-- **Candidates mean the query.** The matching filter of every candidate for a valid query holds
just where the query's filter does, and under the query's limit stands a plan that carries the
normal form of the filter, or the disjunctive form, branch by branch. -/
theorem candidates_carry {catalog : Catalog} (hc : catalog.Registered) {q : Query} {t : RecordType}
    (hvalid : q.validate catalog = .ok t) {settings : PlannerSettings}
    (hsettings : settings.validate = .ok ()) (snapshot : StatisticsSnapshot)
    {limits : Filter.Limits} {prepared : Filter.Prepared}
    (hprepared : q.filter.prepare limits = .ok prepared)
    (h : p ∈ (generate ⟨catalog, t, snapshot, settings⟩ prepared q).1) :
    p.Means q.filter ∧ ∃ (base : Plan) (f : Filter), p = base.withLimit q.limit ∧
      (f = prepared.filter ∨ prepared.expanded = some f) ∧ base.Carries f := by
  obtain ⟨-, hlookup, hknown⟩ := Query.validate_spec hvalid
  have hready : Ready ⟨catalog, t, snapshot, settings⟩ := ready hc.sound hlookup hsettings
  refine ⟨?_, ?_⟩
  · obtain ⟨base, image, rfl, hbase, -⟩ := generate_fulfils hready hknown hprepared h
    intro value rankOf
    rw [matchingFilter_withLimit, hbase.means]
  · obtain ⟨base, hbase, hcarries | ⟨g, hg, hcarries⟩⟩ :=
      generate_carries hready hknown hprepared h
    · exact ⟨base, _, hbase, .inl rfl, hcarries⟩
    · exact ⟨base, g, hbase, .inr hg, hcarries⟩

end PlanningContext

/-! ## A union over two values -/

namespace Visits

theorem candidates_carry_young : Catalog.Registered catalog ∧
    young.validate catalog = .ok visitor ∧ planner.settings.validate = .ok () ∧
    ∃ prepared, young.filter.prepare planner.settings.limits = .ok prepared ∧
      youngPlan ∈
        (PlanningContext.generate ⟨catalog, visitor, {}, planner.settings⟩ prepared young).1 ∧
      youngPlan.Means young.filter ∧ ∃ (base : Plan) (f : Filter),
        youngPlan = base.withLimit young.limit ∧
          (f = prepared.filter ∨ prepared.expanded = some f) ∧ base.Carries f := by
  obtain ⟨prepared, hprepared⟩ : ∃ prepared, young.filter.prepare planner.settings.limits =
    .ok prepared := ⟨_, rfl⟩
  have hcandidate : youngPlan ∈
      (PlanningContext.generate ⟨catalog, visitor, {}, planner.settings⟩ prepared young).1 := by
    cases hprepared
    decide +kernel
  exact ⟨catalog_registered, young_valid, rfl, prepared, hprepared, hcandidate,
    PlanningContext.candidates_carry catalog_registered young_valid rfl {} hprepared hcandidate⟩

end Visits

end RecordLayer
