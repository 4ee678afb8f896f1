import Mathlib.Data.List.Nodup
import RecordLayer.Proofs.Candidates.Branches
import RecordLayer.Proofs.Candidates.Covering
import RecordLayer.Proofs.Filter.NormalForm
import RecordLayer.Proofs.Plan.Building

/-!
# Candidates are well-formed

`Plan.WellFormed` says node by node what a plan has to be under given settings, whatever the
catalog and the statistics are. **The candidates for a query that may be planned are no more than
the settings allow and all different, each of them is well-formed, and each can be opened over
its record type.**

Two of the conditions depend on more than the step that makes the node. Scans in an intersection
take conjuncts at different places, which makes for different conjuncts only because the filter is
normal: no conjunct is listed twice at any depth. And a plan below a union or an intersection has no
covering scan, because nothing is required of a branch but whole records.
-/

namespace RecordLayer

namespace Plan

/-- No scan in the plan is covering. -/
def Uncovered (p : Plan) : Prop :=
  ∀ scan : IndexScan, (Plan.indexScan scan).IsPartOf p → scan.covering = false

/-- The scans take some conditions each, and none that another one takes. -/
structure TakeApart (scans : List IndexScan) : Prop where
  some_taken : ∀ scan ∈ scans, scan.matched ≠ []
  apart : scans.Pairwise fun a b => ∀ f ∈ a.matched, f ∉ b.matched

/-- The plan is put together as the settings allow: a full scan only if they do, no more look-ups
than they do, in ascending order and at least two; at least two children of a union or an
intersection, with no covering scan below; repetitions dropped by primary key; different conditions
for the scans that are intersected. -/
inductive WellFormed (s : PlannerSettings) (t : RecordType) : Plan → Prop
  | fullScan (recordType : String) (h : s.allowFullScan = true) :
      WellFormed s t (.fullScan recordType)
  | indexScan (scan : IndexScan) : WellFormed s t (.indexScan scan)
  | inJoin (field : String) {values : List Value} (index : Index) (batchSize : Nat)
    (htwo : 2 ≤ values.length) (hmany : values.length ≤ s.maxInValues)
    (hascending : values.Pairwise fun a b => a.compare b = .lt) :
    WellFormed s t (.inJoin field values index batchSize)
  | union {children : List Plan} (merge : Option (List String)) (htwo : 2 ≤ children.length)
    (huncovered : ∀ p ∈ children, p.Uncovered) (hchildren : ∀ p ∈ children, WellFormed s t p) :
    WellFormed s t (.union children (some t.primaryKey) merge)
  | intersection {scans : List IndexScan} (merge : Option (List String)) (htwo : 2 ≤ scans.length)
    (huncovered : ∀ scan ∈ scans, scan.covering = false) (hapart : TakeApart scans) :
    WellFormed s t (.intersection (scans.map .indexScan) merge)
  | filter {child : Plan} (residual : Filter) (h : WellFormed s t child) :
    WellFormed s t (.filter child residual)
  | limit {child : Plan} (count : Nat) (h : WellFormed s t child) :
      WellFormed s t (.limit child count)

variable {s : PlannerSettings} {t : RecordType} {p : Plan}

theorem WellFormed.withResidual (h : p.WellFormed s t) (residual : Filter) :
    (p.withResidual residual).WellFormed s t := by
  unfold Plan.withResidual
  split
  · exact h
  · exact .filter residual h

theorem WellFormed.withLimit (h : p.WellFormed s t) (limit : Option Nat) :
    (p.withLimit limit).WellFormed s t := by
  cases limit with
  | none => exact h
  | some n => exact .limit n h

theorem withLimit_inj {p q : Plan} {limit : Option Nat} :
    p.withLimit limit = q.withLimit limit ↔ p = q := by
  cases limit <;> simp [withLimit]

/-- A caller that reads whole records gets no covering scans. -/
theorem Covers.uncovered (h : p.Covers t none) : p.Uncovered := by
  intro scan hpart
  cases hcovering : scan.covering with
  | false => rfl
  | true =>
    obtain ⟨fields, hfields, -⟩ := h scan hpart hcovering
    cases hfields

end Plan

/-! ## Filters without repeated conjuncts -/

namespace Filter

/-- No conjunction in the filter has a conjunct twice. -/
inductive Unrepeated : Filter → Prop
  | compare (field : String) (op : Comparator) (value : Value) :
      Unrepeated (.compare field op value)
  | rank (field : String) (op : Comparator) (n : UInt64) : Unrepeated (.rank field op n)
  | oneOf (field : String) (values : List Value) : Unrepeated (.oneOf field values)
  | not (child : Filter) : Unrepeated (.not child)
  | all {children : List Filter} (hnodup : children.Nodup) (h : ∀ f ∈ children, Unrepeated f) :
    Unrepeated (.all children)
  | any {children : List Filter} (h : ∀ f ∈ children, Unrepeated f) : Unrepeated (.any children)

theorem Various.nodup {fs : List Filter} (h : Various fs) : fs.Nodup := h.2.of_map canonical

theorem Proper.unrepeated {f : Filter} (h : f.Proper) : f.Unrepeated := by
  induction h with
  | compare field op value => exact .compare field op value
  | rank field op n => exact .rank field op n
  | oneOf field => exact .oneOf field _
  | notOneOf => exact .not _
  | all hvarious _ _ ih => exact .all hvarious.nodup ih
  | any _ _ _ ih => exact .any ih

theorem Normal.unrepeated {f : Filter} (h : f.Normal) : f.Unrepeated := by
  rcases h with rfl | rfl | h
  · exact .all .nil (by simp)
  · exact .any (by simp)
  · exact h.unrepeated

theorem Unrepeated.nodup_conjuncts {f : Filter} (h : f.Unrepeated) : f.conjuncts.Nodup := by
  cases h with
  | all hnodup => exact hnodup
  | _ => simp [conjuncts]

theorem Unrepeated.conjuncts {f : Filter} (h : f.Unrepeated) : ∀ g ∈ f.conjuncts, g.Unrepeated := by
  cases h with
  | all _ hchildren => exact hchildren
  | compare field op value => simpa [Filter.conjuncts] using .compare field op value
  | rank field op n => simpa [Filter.conjuncts] using .rank field op n
  | oneOf field values => simpa [Filter.conjuncts] using .oneOf field values
  | not child => simpa [Filter.conjuncts] using .not child
  | any hchildren => simpa [Filter.conjuncts] using .any hchildren

theorem Unrepeated.branches {children : List Filter} (h : Unrepeated (.any children)) :
    ∀ f ∈ children, f.Unrepeated := by
  cases h with
  | any hchildren => exact hchildren

end Filter

namespace PlanningContext

variable {c : PlanningContext} {conjuncts : List Filter} {p : Plan}

/-- The plan is well-formed under the settings of the planning. -/
abbrev Forms (c : PlanningContext) (p : Plan) : Prop := p.WellFormed c.settings c.recordType

/-! ## What scans take -/

theorem taken_ne_nil {used : List Nat} (hused : used ≠ [])
    (hvalid : ∀ i ∈ used, i < conjuncts.length) : taken conjuncts used ≠ [] := by
  obtain ⟨i, rest, rfl⟩ := List.exists_cons_of_ne_nil hused
  have hi := hvalid i (by simp)
  exact List.ne_nil_of_mem (mem_taken.2 ⟨i, by simp, List.getElem?_eq_getElem hi⟩)

/-- In a list without repetitions, different places hold different conjuncts. -/
theorem taken_disjoint {used used' : List Nat} (hnodup : conjuncts.Nodup)
    (hdisjoint : ∀ i ∈ used, i ∉ used') :
    ∀ f ∈ taken conjuncts used, f ∉ taken conjuncts used' := by
  intro f hf hf'
  obtain ⟨i, hi, hget⟩ := mem_taken.1 hf
  obtain ⟨j, hj, hget'⟩ := mem_taken.1 hf'
  have hlt : i < conjuncts.length := (List.getElem?_eq_some_iff.1 hget).1
  have hij : i = j := (List.getElem?_inj hlt hnodup).1 (hget.trans hget'.symm)
  exact hdisjoint i hi (hij ▸ hj)

theorem takeApart_map {scans : List IndexMatch} (hnodup : conjuncts.Nodup)
    (htakes : ∀ m ∈ scans, Takes conjuncts m)
    (hdisjoint : scans.Pairwise fun a b => ∀ i ∈ a.used, i ∉ b.used) :
    Plan.TakeApart (scans.map (·.scan)) where
  some_taken scan hscan := by
    obtain ⟨m, hm, rfl⟩ := List.mem_map.1 hscan
    rw [(htakes m hm).matched]
    exact taken_ne_nil (htakes m hm).used (htakes m hm).valid
  apart := by
    refine List.pairwise_map.2 (hdisjoint.imp_of_mem fun {a b} ha hb hab => ?_)
    rw [(htakes a ha).matched, (htakes b hb).matched]
    exact taken_disjoint hnodup hab

/-! ## Plans -/

/-- **Plans by index are well-formed,** if the unions are and no conjunct is listed twice. -/
theorem Made.forms {required : Option (List String)} (hnodup : conjuncts.Nodup)
    (hunions : ∀ f ∈ conjuncts, ∀ q, c.conjunctUnion? f = some q → c.Forms q)
    (h : c.Made conjuncts required p) : c.Forms p := by
  cases h with
  | point | scan => exact (Plan.WellFormed.indexScan _).withResidual _
  | @lookUps _ field given index _ _ _ htwo hmany =>
    exact (Plan.WellFormed.inJoin field index _ htwo hmany
      (Value.sortDistinct_ascending given)).withResidual _
  | @intersection scans hscans htwo hdisjoint =>
    have htakes : ∀ m ∈ scans, Takes conjuncts m := fun m hm => by
      obtain ⟨index, -, hmatch⟩ := hscans m hm
      exact takes_index hmatch
    -- the condition on an intersection is about its scans, so they are named apart from the nodes
    have hchildren : scans.map (fun m => Plan.indexScan m.scan) =
        (scans.map (·.scan)).map .indexScan := by simp
    rw [hchildren]
    refine (Plan.WellFormed.intersection _ ?_ (fun scan hscan => ?_)
      (takeApart_map hnodup htakes hdisjoint)).withResidual _
    · rwa [List.length_map]
    · obtain ⟨m, hm, rfl⟩ := List.mem_map.1 hscan
      exact (htakes m hm).covering
  | union hi hq => exact (hunions _ (List.mem_of_getElem? hi) _ hq).withResidual _

theorem unionPlan_forms {branches : List Filter}
    (hbranch : ∀ f ∈ branches, ∀ q, c.branchPlan? f = some q → c.Forms q)
    (h : c.unionPlan? (branches.map c.branchPlan?) = some p) : c.Forms p := by
  obtain ⟨children, htwo, hchildren, rfl⟩ := unionPlan_eq_some h
  refine .union _ htwo (fun q hq => ?_) fun q hq => ?_
  -- branches are planned for whole records, whatever the query requires
  · obtain ⟨f, -, hplan⟩ := exists_branch hchildren hq
    exact ((branch_covers f).1 q hplan).uncovered
  · obtain ⟨f, hf, hplan⟩ := exists_branch hchildren hq
    exact hbranch f hf q hplan

/-- **The plan for a branch is well-formed,** and so is the union over a conjunct, if no conjunct is
repeated. -/
theorem branch_forms (f : Filter) (hf : f.Unrepeated) :
    (∀ q, c.branchPlan? f = some q → c.Forms q) ∧
      ∀ q, c.conjunctUnion? f = some q → c.Forms q := by
  refine branch_induction (B := fun _ => c.Forms) (U := fun _ => c.Forms)
    (fun _ hg => hg.conjuncts) (fun _ hg => hg.branches)
    (fun g q hg hunions hq => ?_) (fun branches q _ hbranches hq => ?_) f hf
  · exact (made_of_branchPlan hq).forms hg.nodup_conjuncts hunions
  · exact unionPlan_forms hbranches hq

/-! ## Candidates -/

/-- **Every candidate is well-formed.** -/
theorem generate_forms {q : Query} {limits : Filter.Limits} {prepared : Filter.Prepared}
    (hprepared : q.filter.prepare limits = .ok prepared) (h : p ∈ (c.generate prepared q).1) :
    c.Forms p := by
  obtain ⟨hfilter, hexpanded⟩ := Filter.prepare_spec hprepared
  have hnormal : prepared.filter.Normal := hfilter ▸ Filter.normalize_normal q.filter
  obtain ⟨base, rfl, hmade | ⟨hallowed, rfl⟩ | ⟨g, hg, hunion⟩⟩ := generate_cases h
  · refine (hmade.forms hnormal.unrepeated.nodup_conjuncts fun g hg => ?_).withLimit _
    exact (branch_forms g (hnormal.unrepeated.conjuncts g hg)).2
  · exact ((Plan.WellFormed.fullScan _ hallowed).withResidual _).withLimit _
  · have hform : g.Normal := (Filter.normalize_normal q.filter).disjunctive (hexpanded g hg)
    exact ((branch_forms g hform.unrepeated).2 base hunion).withLimit _

/-- Candidates are not too many, and all different. -/
theorem generate_distinct (hmax : c.settings.maxCandidates ≠ 0) (prepared : Filter.Prepared)
    (q : Query) : (c.generate prepared q).1.length ≤ c.settings.maxCandidates ∧
      (c.generate prepared q).1.Nodup := by
  unfold generate
  dsimp only
  split
  · exact ⟨Nat.one_le_iff_ne_zero.2 hmax, by simp⟩
  · refine ⟨?_, ?_⟩
    · rw [List.length_map, List.length_take]
      exact Nat.min_le_left _ _
    · refine ((distinctPlans_spec _ []).2.sublist (List.take_sublist _ _)).map fun p q hpq => ?_
      exact Plan.withLimit_inj.1 hpq

/-- In every execution over the record type a cursor for the plan can be opened. -/
def Opens (c : PlanningContext) (p : Plan) : Prop :=
  ∀ (consistency : Consistency) (requestId : String) (monitor : Monitor), ∃ context cursor,
    ExecutionContext.create c.catalog c.recordType.name consistency requestId = .ok context ∧
      (Cursor.open context p monitor).1 = .ok cursor

theorem generate_opens (hc : c.Ready) {q : Query} (hknown : c.Knows q.filter)
    {limits : Filter.Limits} {prepared : Filter.Prepared}
    (hprepared : q.filter.prepare limits = .ok prepared) (h : p ∈ (c.generate prepared q).1) :
    c.Opens p := by
  intro consistency requestId monitor
  obtain ⟨base, image, rfl, hbase, -⟩ := generate_fulfils hc hknown hprepared h
  obtain ⟨context, hcontext⟩ : ∃ context,
      ExecutionContext.create c.catalog c.recordType.name consistency requestId = .ok context := by
    rw [ExecutionContext.create, hc.recordType]
    exact ⟨_, rfl⟩
  -- building reads nothing, so any state of the store will do
  have hover : context.Over { catalog := c.catalog, tables := [] } c.recordType :=
    ExecutionContext.over_of_create rfl hc.recordType hcontext
  obtain ⟨node, hnode⟩ :=
    Plan.build_withLimit (hbase.fits.builds hover hc.sound hc.recordType) q.limit
  exact ⟨context, _, hcontext, by rw [Cursor.open, hnode]⟩

/-- The plans are what a caller may expect of candidates. -/
structure Offers (c : PlanningContext) (candidates : List Plan) : Prop where
  few : candidates.length ≤ c.settings.maxCandidates
  distinct : candidates.Nodup
  wellFormed : ∀ p ∈ candidates, p.WellFormed c.settings c.recordType
  opens : ∀ p ∈ candidates, c.Opens p

/-- **Candidates are well-formed and can be run.** For a valid query that is not too deep there are
no more candidates than the settings allow, all of them different; each is well-formed, and a cursor
for it can be opened. -/
theorem generate_offers {catalog : Catalog} (hc : catalog.Registered) {q : Query} {t : RecordType}
    (hvalid : q.validate catalog = .ok t) {settings : PlannerSettings}
    (hsettings : settings.validate = .ok ())
    (hdepth : q.filter.checkDepth settings.limits.maxDepth = .ok ())
    (snapshot : StatisticsSnapshot) :
    ∃ prepared, q.filter.prepare settings.limits = .ok prepared ∧
      Offers ⟨catalog, t, snapshot, settings⟩
        (generate ⟨catalog, t, snapshot, settings⟩ prepared q).1 := by
  obtain ⟨-, hlookup, hknown⟩ := Query.validate_spec hvalid
  obtain ⟨prepared, hprepared⟩ : ∃ prepared, q.filter.prepare settings.limits = .ok prepared := by
    unfold Filter.prepare
    rw [hdepth]
    exact ⟨_, rfl⟩
  have hready : Ready ⟨catalog, t, snapshot, settings⟩ := ready hc.sound hlookup hsettings
  have hmax : settings.maxCandidates ≠ 0 := PlannerSettings.bound_ne_zero hsettings
    (show ("max_candidate_plans", settings.maxCandidates) ∈ settings.bounds by
      simp [PlannerSettings.bounds])
  obtain ⟨hfew, hdistinct⟩ :=
    generate_distinct (c := ⟨catalog, t, snapshot, settings⟩) hmax prepared q
  exact ⟨prepared, hprepared, hfew, hdistinct, fun p hp => generate_forms hprepared hp,
    fun p hp => generate_opens hready hknown hprepared hp⟩

end PlanningContext

/-! ## A query for one value or another -/

namespace Visits

theorem generate_offers_young : Catalog.Registered catalog ∧
    young.validate catalog = .ok visitor ∧ planner.settings.validate = .ok () ∧
    young.filter.checkDepth planner.settings.limits.maxDepth = .ok () ∧
    ∃ prepared, young.filter.prepare planner.settings.limits = .ok prepared ∧
      PlanningContext.Offers ⟨catalog, visitor, {}, planner.settings⟩
        (PlanningContext.generate ⟨catalog, visitor, {}, planner.settings⟩ prepared young).1 :=
  ⟨catalog_registered, young_valid, rfl, rfl,
    PlanningContext.generate_offers catalog_registered young_valid rfl rfl {}⟩

end Visits

end RecordLayer
