import RecordLayer.Proofs.Candidates.Generation
import RecordLayer.Proofs.Plan.Orders
import RecordLayer.Proofs.Query

/-!
# Covering scans give what the caller reads

A covering scan makes records from the entries of its index alone. Planning allows that only for
a scan that gives the whole plan's output, and only if the index stores all that the caller
reads. The scans inside unions and intersections, whose records have to be compared and filtered,
are never covering.

Limits are put on candidates as the last thing, so a plan that fits has none inside.
-/

namespace RecordLayer

namespace Plan

variable {t : RecordType} {required : Option (List String)} {p : Plan}

/-- Every covering scan in the plan is of an index that stores each field that the caller reads,
unless it is the primary key, which every entry carries. A caller that reads whole records gets no
covering scans. -/
def Covers (t : RecordType) (required : Option (List String)) (p : Plan) : Prop :=
  ∀ scan : IndexScan, (Plan.indexScan scan).IsPartOf p → scan.covering = true →
    ∃ fields, required = some fields ∧
      ∀ f ∈ fields, f = t.primaryKey ∨ scan.index.storesField f = true

/-- A plan without covering scans suits every caller. -/
theorem Covers.weaken (h : p.Covers t none) (required : Option (List String)) :
    p.Covers t required := by
  intro scan hpart hcovering
  obtain ⟨fields, hfields, -⟩ := h scan hpart hcovering
  cases hfields

theorem covers_fullScan (recordType : String) : (Plan.fullScan recordType).Covers t required := by
  intro scan hpart
  cases hpart

theorem covers_inJoin (field : String) (values : List Value) (index : Index) (batchSize : Nat) :
    (Plan.inJoin field values index batchSize).Covers t required := by
  intro scan hpart
  cases hpart

theorem covers_indexScan {scan : IndexScan} (h : scan.covering = true → ∃ fields,
    required = some fields ∧ ∀ f ∈ fields, f = t.primaryKey ∨ scan.index.storesField f = true) :
    (Plan.indexScan scan).Covers t required := by
  intro scan' hpart hcovering
  cases hpart
  exact h hcovering

theorem covers_union {children : List Plan} (h : ∀ q ∈ children, q.Covers t required)
    (dedup : Option String) (merge : Option (List String)) :
    (Plan.union children dedup merge).Covers t required := by
  intro scan hpart
  cases hpart with
  | union _ _ hq hpart => exact h _ hq scan hpart

theorem covers_intersection {children : List Plan} (h : ∀ q ∈ children, q.Covers t required)
    (merge : Option (List String)) : (Plan.intersection children merge).Covers t required := by
  intro scan hpart
  cases hpart with
  | intersection _ hq hpart => exact h _ hq scan hpart

theorem Covers.withResidual (h : p.Covers t required) (residual : Filter) :
    (p.withResidual residual).Covers t required := by
  intro scan hpart
  unfold Plan.withResidual at hpart
  split at hpart
  · exact h scan hpart
  · cases hpart with
    | filter _ hpart => exact h scan hpart

theorem Covers.withLimit (h : p.Covers t required) (limit : Option Nat) :
    (p.withLimit limit).Covers t required := by
  intro scan hpart
  cases limit with
  | none => exact h scan hpart
  | some n =>
    cases hpart with
    | limit _ hpart => exact h scan hpart

/-- Which fields the caller reads matters, not how they are listed. -/
theorem Covers.congr {required' : Option (List String)} (h : p.Covers t required)
    (halike : Query.RequiresAlike required required') : p.Covers t required' := by
  intro scan hpart hcovering
  obtain ⟨fields, rfl, hstored⟩ := h scan hpart hcovering
  cases required' with
  | none => cases halike
  | some fields' => exact ⟨fields', rfl, fun f hf => hstored f ((halike f).2 hf)⟩

/-- The plan gives as many records as the limit allows, and nothing inside it is limited. -/
def LimitedBy (p : Plan) (limit : Option Nat) : Prop :=
  ∃ base : Plan, p = base.withLimit limit ∧
    ∀ (child : Plan) (count : Nat), ¬(Plan.limit child count).IsPartOf base

theorem Fits.limitedBy {catalog : Catalog} {image : Record → Record} (h : p.Fits catalog t image)
    (limit : Option Nat) : (p.withLimit limit).LimitedBy limit := by
  refine ⟨p, rfl, fun child count hpart => ?_⟩
  obtain ⟨image', hlimit⟩ := h.part hpart
  cases hlimit

end Plan

namespace PlanningContext

variable {c : PlanningContext} {conjuncts : List Filter} {required : Option (List String)}
    {p : Plan}

/-! ## Plans by index -/

/-- **A scan is made covering only if the index stores what the caller reads.** -/
theorem scanPlan_covers (conjuncts : List Filter) (required : Option (List String))
    (m : IndexMatch) :
    (c.scanPlan conjuncts required m).Covers c.recordType required := by
  refine (Plan.covers_indexScan fun hcovering => ?_).withResidual _
  obtain ⟨fields, hfields, hstored⟩ := read_of_isCovering hcovering
  exact ⟨fields, hfields, fun f hf => hstored f (List.mem_append_left _ hf)⟩

/-- **Plans by index have covering scans only for what the caller reads,** if the
unions have none. -/
theorem Made.covers (hunions : ∀ f ∈ conjuncts, ∀ q, c.conjunctUnion? f = some q →
    q.Covers c.recordType none) (h : c.Made conjuncts required p) :
    p.Covers c.recordType required := by
  cases h with
  | point | scan => exact scanPlan_covers conjuncts required _
  | lookUps => exact (Plan.covers_inJoin _ _ _ _).withResidual _
  | intersection hscans =>
    -- the children are the scans as they were matched, before any of them is made covering
    refine (Plan.covers_intersection (fun q hq => ?_) _).withResidual _
    obtain ⟨m, hm, rfl⟩ := List.mem_map.1 hq
    obtain ⟨index, -, hmatch⟩ := hscans m hm
    refine Plan.covers_indexScan fun hcovering => ?_
    rw [(takes_index hmatch).covering] at hcovering
    cases hcovering
  | union hi hq =>
    have hunion := hunions _ (List.mem_of_getElem? hi) _ hq
    exact (hunion.weaken required).withResidual _

/-! ## Branches -/

theorem unionPlan_covers {branches : List Filter} {plan? : Filter → Option Plan}
    (hbranch : ∀ f ∈ branches, ∀ q, plan? f = some q → q.Covers c.recordType none)
    (h : c.unionPlan? (branches.map plan?) = some p) : p.Covers c.recordType none := by
  obtain ⟨children, -, hchildren, rfl⟩ := unionPlan_eq_some h
  refine Plan.covers_union (fun q hq => ?_) _ _
  obtain ⟨f, hf, hplan⟩ := exists_branch hchildren hq
  exact hbranch f hf q hplan

/-- **Plans for branches have no covering scans,** and neither have unions over conjuncts. -/
theorem branch_covers (f : Filter) :
    (∀ q, c.branchPlan? f = some q → q.Covers c.recordType none) ∧
      ∀ q, c.conjunctUnion? f = some q → q.Covers c.recordType none := by
  refine branch_induction (H := fun _ => True) (B := fun _ => (·.Covers c.recordType none))
    (U := fun _ => (·.Covers c.recordType none)) (fun _ _ _ _ => trivial) (fun _ _ _ _ => trivial)
    (fun g q _ hunions hq => ?_) (fun branches q _ hbranches hq => ?_) f trivial
  · exact (made_of_branchPlan hq).covers hunions
  · exact unionPlan_covers hbranches hq

/-! ## Candidates -/

/-- **The covering scans of every candidate store what the caller reads.** -/
theorem generate_covers {q : Query} {prepared : Filter.Prepared}
    (h : p ∈ (c.generate prepared q).1) : p.Covers c.recordType q.requiredFields := by
  obtain ⟨base, rfl, hmade | ⟨-, rfl⟩ | ⟨g, -, hunion⟩⟩ := generate_cases h
  · exact (hmade.covers fun g _ => (branch_covers g).2).withLimit _
  · exact ((Plan.covers_fullScan _).withResidual _).withLimit _
  · exact (((branch_covers g).2 base hunion).weaken _).withLimit _

end PlanningContext

end RecordLayer
