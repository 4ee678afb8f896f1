import RecordLayer.Candidates
import RecordLayer.Proofs.Filter.Evaluation

/-!
# How candidates are made

There are five ways to make a plan by index for a conjunction, and `Made` has a case for each: a
look-up in a unique index, a matched scan, the look-ups of the values of a list, an intersection of
scans that use different conjuncts, and the union for one of the conjuncts. The conjuncts that are
not used become a residual filter.

The plan for a branch of a disjunction is made in the same ways from the conjuncts of the branch. So
a property of all plans for branches takes two steps, one from the unions for the conjuncts of a
branch to the plan for it and one from the plans for the branches of a disjunction to the union over
them. `branch_induction` puts them together.
-/

namespace RecordLayer.PlanningContext

variable {c : PlanningContext} {conjuncts : List Filter} {required : Option (List String)}
    {p : Plan}

/-! ## Plans by index -/

/-- The ways to make a plan by index for a conjunction. -/
inductive Made (c : PlanningContext) (conjuncts : List Filter) (required : Option (List String)) :
    Plan → Prop
  | point {index : Index} {m : IndexMatch} (hindex : index ∈ c.indexes)
    (hunique : index.unique = true) (hm : matchValue? conjuncts index = some m)
    (hpoint : isPoint m = true) : Made c conjuncts required (c.scanPlan conjuncts required m)
  | scan {index : Index} {m : IndexMatch} (hindex : index ∈ c.indexes)
    (hm : matchIndex? conjuncts index = some m) :
    Made c conjuncts required (c.scanPlan conjuncts required m)
  | lookUps {i : Nat} {field : String} {given : List Value} {index : Index}
    (hi : conjuncts[i]? = some (.oneOf field given)) (hindex : index ∈ c.indexes)
    (hlead : index.leadingField? = some field) (htwo : 2 ≤ (Value.sortDistinct given).length)
    (hmany : (Value.sortDistinct given).length ≤ c.settings.maxInValues) :
    Made c conjuncts required
      ((Plan.inJoin field (Value.sortDistinct given) index c.settings.inJoinBatch).withResidual
        (residual conjuncts [i]))
  | intersection {scans : List IndexMatch}
    (hscans : ∀ m ∈ scans, ∃ index ∈ c.indexes, matchIndex? conjuncts index = some m)
    (htwo : 2 ≤ scans.length) (hdisjoint : scans.Pairwise fun a b => ∀ i ∈ a.used, i ∉ b.used) :
    Made c conjuncts required
      ((Plan.intersection (scans.map fun m => .indexScan m.scan)
        (c.mergeKey? (scans.map fun m => .indexScan m.scan))).withResidual
          (residual conjuncts (scans.flatMap (·.used))))
  | union {i : Nat} {f : Filter} {q : Plan} (hi : conjuncts[i]? = some f)
    (hq : c.conjunctUnion? f = some q) :
    Made c conjuncts required (q.withResidual (residual conjuncts [i]))

theorem made_of_pointPlan (h : c.pointPlan? conjuncts required = some p) :
    c.Made conjuncts required p := by
  obtain ⟨m, hfound, rfl⟩ := Option.map_eq_some_iff.1 h
  obtain ⟨index, hindex, hm⟩ := List.mem_filterMap.1 (List.mem_of_find?_eq_some hfound)
  obtain ⟨hindex, hunique⟩ := List.mem_filter.1 hindex
  exact .point hindex hunique hm (List.find?_some hfound)

theorem joinable_spec {f : Filter} {field : String} {values : List Value} {index : Index}
    (h : c.joinable? f = some (field, values, index)) :
    ∃ given, f = .oneOf field given ∧ values = Value.sortDistinct given ∧ 2 ≤ values.length ∧
      index ∈ c.indexes ∧ index.leadingField? = some field := by
  cases f with
  | oneOf field' given =>
    rw [joinable?] at h
    split at h
    · cases h
    · obtain ⟨index', hfound, heq⟩ := Option.map_eq_some_iff.1 h
      cases heq
      obtain ⟨hof, hlead⟩ := List.mem_filter.1 (List.mem_of_find?_eq_some hfound)
      have hplannable := List.find?_some hfound
      exact ⟨given, rfl, rfl, by omega, Catalog.mem_plannableIndexes.2 ⟨hof, hplannable⟩,
        by simpa using hlead⟩
  | _ => cases h

theorem made_of_joinPlans (h : p ∈ c.joinPlans conjuncts) : c.Made conjuncts required p := by
  obtain ⟨⟨f, i⟩, hmem, hplan⟩ := List.mem_filterMap.1 h
  dsimp only at hplan
  split at hplan
  · cases hplan
  · rename_i field values index hjoin
    obtain ⟨given, rfl, rfl, htwo, hindex, hlead⟩ := joinable_spec hjoin
    split at hplan
    · cases hplan
    · rename_i hmany
      obtain rfl := Option.some.inj hplan
      exact .lookUps (List.mem_zipIdx_iff_getElem?.1 hmem) hindex hlead htwo
        (Nat.le_of_not_lt hmany)

/-- **Scans that are taken one after the other use different conjuncts.** -/
theorem takeDisjoint_spec (scans : List IndexMatch) : ∀ used : List Nat,
    (∀ m ∈ takeDisjoint used scans, m ∈ scans ∧ ∀ i ∈ m.used, i ∉ used) ∧
      (takeDisjoint used scans).Pairwise fun a b => ∀ i ∈ a.used, i ∉ b.used := by
  -- whatever is in use already: what a scan that is taken uses is in use for those behind it
  induction scans with
  | nil => exact fun _ => ⟨by simp [takeDisjoint], .nil⟩
  | cons m rest ih =>
    intro used
    rw [takeDisjoint]
    split
    · obtain ⟨hrest, hpairs⟩ := ih used
      exact ⟨fun m' hm' => (hrest m' hm').imp_left (List.mem_cons_of_mem _), hpairs⟩
    · rename_i hfree
      obtain ⟨hrest, hpairs⟩ := ih (m.used ++ used)
      refine ⟨fun m' hm' => ?_, List.pairwise_cons.2 ⟨fun m' hm' i hi hmem => ?_, hpairs⟩⟩
      · rcases List.mem_cons.1 hm' with rfl | hm'
        · refine ⟨by simp, fun i hi hmem => hfree (List.any_eq_true.2 ⟨i, hi, ?_⟩)⟩
          simpa using hmem
        · obtain ⟨hin, hnew⟩ := hrest m' hm'
          exact ⟨List.mem_cons_of_mem _ hin, fun i hi hmem =>
            hnew i hi (List.mem_append_right _ hmem)⟩
      · exact (hrest m' hm').2 i hmem (List.mem_append_left _ hi)

theorem subset_of_disjointScans {m : IndexMatch} {scans : List IndexMatch}
    (h : m ∈ c.disjointScans scans) : m ∈ scans := by
  have h := ((takeDisjoint_spec _ []).1 m h).1
  obtain ⟨sized, hsized, rfl⟩ := List.mem_map.1 h
  rw [(List.mergeSort_perm _ _).mem_iff] at hsized
  obtain ⟨m, hm, rfl⟩ := List.mem_map.1 hsized
  exact (List.mem_filter.1 hm).1

theorem made_of_intersectionPlan
    (h : c.intersectionPlan? conjuncts (c.indexes.filterMap (matchIndex? conjuncts)) = some p) :
    c.Made conjuncts required p := by
  unfold intersectionPlan? at h
  dsimp only at h
  split at h
  · cases h
  · rename_i htwo
    obtain rfl := Option.some.inj h
    refine .intersection (fun m hm => ?_) (Nat.le_of_not_lt htwo) (takeDisjoint_spec _ []).2
    exact List.mem_filterMap.1 (subset_of_disjointScans hm)

theorem conjunctUnions_eq (fs : List Filter) : c.conjunctUnions fs = fs.map c.conjunctUnion? := by
  induction fs with
  | nil => rfl
  | cons f rest ih => rw [conjunctUnions, ih, List.map_cons]

/-- **Every plan by index is made in one of the ways.** -/
theorem made_of_indexPlans (h : p ∈ c.indexPlans conjuncts required (c.conjunctUnions conjuncts)) :
    c.Made conjuncts required p := by
  simp only [indexPlans, List.mem_append] at h
  rcases h with ((h | h) | h) | h
  · obtain ⟨m, hm, rfl⟩ := List.mem_map.1 h
    obtain ⟨index, hindex, hm⟩ := List.mem_filterMap.1 hm
    exact .scan hindex hm
  · exact made_of_joinPlans h
  · exact made_of_intersectionPlan (Option.mem_toList.1 h)
  · obtain ⟨⟨union, i⟩, hmem, hp⟩ := List.mem_filterMap.1 h
    obtain ⟨q, rfl, rfl⟩ := Option.map_eq_some_iff.1 hp
    have hunion := List.mem_zipIdx_iff_getElem?.1 hmem
    rw [conjunctUnions_eq, List.getElem?_map] at hunion
    obtain ⟨f, hf, hq⟩ := Option.map_eq_some_iff.1 hunion
    exact .union hf hq

/-! ## Unions -/

/-- Where every branch has a plan, the plans are those of the branches, in their order. -/
theorem eq_map_some_of_mapM {plans : List (Option Plan)} {children : List Plan}
    (h : plans.mapM id = some children) : plans = children.map some := by
  induction plans generalizing children with
  | nil =>
    obtain rfl := Option.some.inj h
    rfl
  | cons plan rest ih =>
    rw [List.mapM_cons] at h
    obtain ⟨q, hq, hrest⟩ := Option.bind_eq_some_iff.1 h
    obtain ⟨qs, hqs, heq⟩ := Option.bind_eq_some_iff.1 hrest
    obtain rfl := Option.some.inj heq
    rw [List.map_cons, ← ih hqs, ← show plan = some q from hq]

/-- The union of the plans of at least two branches, where each has one. -/
theorem unionPlan_eq_some {branches : List Filter} {plan? : Filter → Option Plan}
    (h : c.unionPlan? (branches.map plan?) = some p) :
    ∃ children, 2 ≤ children.length ∧ branches.map plan? = children.map some ∧
      p = .union children (some c.recordType.primaryKey) (c.mergeKey? children) := by
  unfold unionPlan? at h
  split at h
  · cases h
  · rename_i htwo
    obtain ⟨children, hchildren, rfl⟩ := Option.map_eq_some_iff.1 h
    have heach := eq_map_some_of_mapM hchildren
    rw [heach, List.length_map] at htwo
    exact ⟨children, Nat.le_of_not_lt htwo, heach, rfl⟩

/-- Each child of a union is the plan of a branch. -/
theorem exists_branch {branches : List Filter} {plan? : Filter → Option Plan} {children : List Plan}
    (h : branches.map plan? = children.map some) {q : Plan} (hq : q ∈ children) :
    ∃ f ∈ branches, plan? f = some q :=
  List.mem_map.1 (h ▸ List.mem_map.2 ⟨q, hq, rfl⟩)

theorem branchPlans_eq (fs : List Filter) : c.branchPlans fs = fs.map c.branchPlan? := by
  induction fs with
  | nil => rfl
  | cons f rest ih => rw [branchPlans, ih, List.map_cons]

/-! ## Branches -/

theorem branchPlan_eq (f : Filter) :
    c.branchPlan? f = c.branchPlanOf? f.conjuncts (c.conjunctUnions f.conjuncts) := by
  -- a single test has no union, which comes to the same as not asking for one
  have hnone : ∀ g, c.branchPlanOf? [g] [none] = c.branchPlanOf? [g] [] := fun g => by
    simp [branchPlanOf?, indexPlans]
  cases f with
  | compare | oneOf | rank | not =>
    simp [branchPlan?, Filter.conjuncts, conjunctUnions, conjunctUnion?, hnone]
  | all => simp [branchPlan?, Filter.conjuncts]
  | any => simp [branchPlan?, Filter.conjuncts, conjunctUnions, conjunctUnion?]

/-- **The plan for a branch is made from its conjuncts,** for a caller that reads whole records. -/
theorem made_of_branchPlan {f : Filter} (h : c.branchPlan? f = some p) :
    c.Made f.conjuncts none p := by
  rw [branchPlan_eq] at h
  rcases Option.or_eq_some_iff.1 h with h | ⟨-, h⟩
  · exact made_of_pointPlan h
  · exact made_of_indexPlans (Plan.mem_of_best h)

/-- **Induction on branches.** `B` holds of the plan for a branch if `U` holds of the unions for its
conjuncts, and `U` of the union over a disjunction if `B` holds of the plans for its branches. -/
theorem branch_induction {H : Filter → Prop} {B U : Filter → Plan → Prop}
    (hall : ∀ children, H (.all children) → ∀ f ∈ children, H f)
    (hany : ∀ children, H (.any children) → ∀ f ∈ children, H f)
    (hbranch : ∀ f q, H f → (∀ g ∈ f.conjuncts, ∀ r, c.conjunctUnion? g = some r → U g r) →
      c.branchPlan? f = some q → B f q)
    (hunion : ∀ branches q, H (.any branches) →
      (∀ f ∈ branches, ∀ r, c.branchPlan? f = some r → B f r) →
      c.unionPlan? (branches.map c.branchPlan?) = some q → U (.any branches) q)
    (f : Filter) (hf : H f) :
    (∀ q, c.branchPlan? f = some q → B f q) ∧ ∀ q, c.conjunctUnion? f = some q → U f q := by
  induction f using Filter.induction with
  | compare | oneOf | rank | not =>
    refine ⟨fun q => hbranch _ q hf ?_, ?_⟩ <;> simp [Filter.conjuncts, conjunctUnion?]
  | all children ih =>
    refine ⟨fun q => hbranch _ q hf fun g hg => ?_, by simp [conjunctUnion?]⟩
    exact (ih g hg (hall children hf g hg)).2
  | any children ih =>
    -- a disjunction is its own conjunct, so the union over it comes before the plan for it
    have hdisjunction : ∀ q, c.conjunctUnion? (.any children) = some q → U (.any children) q := by
      intro q hq
      rw [conjunctUnion?, branchPlans_eq] at hq
      exact hunion children q hf (fun g hg => (ih g hg (hany children hf g hg)).1) hq
    exact ⟨fun q => hbranch _ q hf (by simpa [Filter.conjuncts] using hdisjunction), hdisjunction⟩

/-! ## Candidates -/

/-- Only an expansion into a disjunction has a union. -/
theorem expandedUnion_eq_some {expanded : Option Filter} (h : c.expandedUnion? expanded = some p) :
    ∃ f, expanded = some f ∧ c.conjunctUnion? f = some p := by
  unfold expandedUnion? at h
  split at h
  · rename_i terms
    exact ⟨.any terms, rfl, by rwa [conjunctUnion?]⟩
  · cases h

theorem fullScanPlan_eq_some {f : Filter} (h : c.fullScanPlan? f = some p) :
    c.settings.allowFullScan = true ∧ p = (Plan.fullScan c.recordType.name).withResidual f := by
  unfold fullScanPlan? at h
  split at h
  · exact ⟨by assumption, (Option.some.inj h).symm⟩
  · cases h

/-- What is kept stood in the list, was not seen before, and is kept once. -/
theorem distinctPlans_spec (plans : List Plan) : ∀ seen : List Plan,
    (∀ q ∈ distinctPlans seen plans, q ∈ plans ∧ q ∉ seen) ∧ (distinctPlans seen plans).Nodup := by
  induction plans with
  | nil => exact fun _ => ⟨by simp [distinctPlans], .nil⟩
  | cons first rest ih =>
    intro seen
    rw [distinctPlans]
    split
    · obtain ⟨hrest, hnodup⟩ := ih seen
      exact ⟨fun q hq => (hrest q hq).imp_left (List.mem_cons_of_mem _), hnodup⟩
    · rename_i hseen
      obtain ⟨hrest, hnodup⟩ := ih (first :: seen)
      refine ⟨fun q hq => ?_,
        List.nodup_cons.2 ⟨fun hmem => (hrest first hmem).2 (by simp), hnodup⟩⟩
      rcases List.mem_cons.1 hq with rfl | hq
      · exact ⟨by simp, by simpa using hseen⟩
      · obtain ⟨hin, hnew⟩ := hrest q hq
        exact ⟨List.mem_cons_of_mem _ hin, fun hmem => hnew (List.mem_cons_of_mem _ hmem)⟩

/-- **Where a candidate comes from:** under the query's limit it is a plan by index, the full scan,
or the union over the expansion. -/
theorem generate_cases {q : Query} {prepared : Filter.Prepared}
    (h : p ∈ (c.generate prepared q).1) :
    ∃ base, p = base.withLimit q.limit ∧
      (c.Made prepared.filter.conjuncts q.requiredFields base ∨
        (c.settings.allowFullScan = true ∧
          base = (Plan.fullScan c.recordType.name).withResidual prepared.filter) ∨
        ∃ f, prepared.expanded = some f ∧ c.conjunctUnion? f = some base) := by
  unfold generate at h
  dsimp only at h
  split at h
  · rename_i plan hpoint
    exact ⟨plan, List.mem_singleton.1 h, .inl (made_of_pointPlan hpoint)⟩
  · obtain ⟨base, hbase, rfl⟩ := List.mem_map.1 h
    -- neither the bound on the number of candidates nor dropping repetitions adds a plan
    have hbase := ((distinctPlans_spec _ []).1 base (List.mem_of_mem_take hbase)).1
    simp only [List.mem_append, Option.mem_toList] at hbase
    rcases hbase with (hscan | hindex) | hunion
    · exact ⟨base, rfl, .inr (.inl (fullScanPlan_eq_some hscan))⟩
    · exact ⟨base, rfl, .inl (made_of_indexPlans hindex)⟩
    · exact ⟨base, rfl, .inr (.inr (expandedUnion_eq_some hunion))⟩

end RecordLayer.PlanningContext
