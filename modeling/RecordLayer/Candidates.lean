import RecordLayer.Catalog
import RecordLayer.Plan.Preference
import RecordLayer.Query
import RecordLayer.Settings

/-!
# Candidate plans

The plans that are worth weighing for a query. Each takes some of the filter's conjuncts for its
access path and leaves the others as a residual filter:

- a point look-up in a unique index, which leaves no need for anything else;
- a full scan, if the settings allow it;
- a scan of each index whose key begins with fields that the conjuncts bind;
- look-ups of the values of a list;
- an intersection of scans that take different conjuncts;
- a union over the branches of a disjunction, each with its cheapest plan by index.
-/

namespace RecordLayer

/-- What candidates are generated from. -/
structure PlanningContext where
  catalog : Catalog
  recordType : RecordType
  snapshot : StatisticsSnapshot
  settings : PlannerSettings

/-- A scan and the positions of the conjuncts that its bounds enforce. -/
structure IndexMatch where
  scan : IndexScan
  used : List Nat

namespace PlanningContext

/-- The indexes that plans may scan. -/
def indexes (c : PlanningContext) : List Index := c.catalog.plannableIndexes c.recordType.name

/-- The cost model. -/
def costModel (c : PlanningContext) : CostModel := ⟨c.settings.cost, c.snapshot⟩

/-! ## Conjuncts -/

/-- The conjuncts at the given positions, in their order. -/
def taken (conjuncts : List Filter) (used : List Nat) : List Filter :=
  (conjuncts.zipIdx.filter fun (_, i) => used.contains i).map (·.1)

/-- The conjuncts at the other positions, as one filter. -/
def residual (conjuncts : List Filter) (used : List Nat) : Filter :=
  match (conjuncts.zipIdx.filter fun (_, i) => !used.contains i).map (·.1) with
  | [] => .always
  | [f] => f
  | fs => .all fs

/-- The first conjunct at an unused position that compares the field by an accepted operator. -/
def findComparison (conjuncts : List Filter) (used : List Nat) (field : String)
    (accept : Comparator → Bool) : Option (Nat × Comparator × Value) :=
  conjuncts.zipIdx.findSome? fun
    | (.compare f op value, i) =>
      if f = field ∧ accept op ∧ !used.contains i then some (i, op, value) else none
    | _ => none

/-! ## Matching an index -/

/-- The bound that a comparison puts on a field. -/
def boundOf (op : Comparator) (value : Value) : Bound :=
  if op = .gt ∨ op = .lt then .excluded value else .included value

/-- Binds the fields of a key by equality from the left, and the first one that is not bound so by a
lower and an upper bound. -/
def bindKey (conjuncts : List Filter) : List String → KeyRange → List Nat → KeyRange × List Nat
  | [], range, used => (range, used)
  | field :: rest, range, used =>
    match findComparison conjuncts used field (· == .eq) with
    | some (i, _, value) =>
      bindKey conjuncts rest { range with equal := range.equal ++ [value] } (i :: used)
    | none =>
      let (range, used) := match findComparison conjuncts used field (·.isLowerBound) with
        | some (i, op, value) => ({ range with lower := boundOf op value }, i :: used)
        | none => (range, used)
      match findComparison conjuncts used field (·.isUpperBound) with
      | some (i, op, value) => ({ range with upper := boundOf op value }, i :: used)
      | none => (range, used)

/-- The scan of an index by the values of its key. -/
def matchValue? (conjuncts : List Filter) (index : Index) : Option IndexMatch :=
  let (range, used) := bindKey conjuncts index.keyFields {} []
  if used.isEmpty then none
  else some ⟨⟨index, .keys range, false, taken conjuncts used⟩, used⟩

/-- The smaller of two ends, if there are any. -/
def earlierStop : Option UInt64 → Option UInt64 → Option UInt64
  | some a, some b => some (if b < a then b else a)
  | some a, none => some a
  | none, b => b

/-- Narrows a window by every rank condition on a field. -/
def bindRanks (field : String) : List (Filter × Nat) → UInt64 → Option UInt64 → List Nat →
    UInt64 × Option UInt64 × List Nat
  | [], start, stop, used => (start, stop, used)
  | (.rank f op n, i) :: rest, start, stop, used =>
    match if f = field then ScanBounds.rankWindow? op n else none with
    | some (s, e) =>
      bindRanks field rest (if start < s then s else start) (earlierStop stop e) (i :: used)
    | none => bindRanks field rest start stop used
  | _ :: rest, start, stop, used => bindRanks field rest start stop used

/-- The scan of a rank index by the ranks of its field. -/
def matchRank? (conjuncts : List Filter) (index : Index) : Option IndexMatch := do
  let field ← index.leadingField?
  let (start, stop, used) := bindRanks field conjuncts.zipIdx 0 none []
  if used.isEmpty then none
  else some ⟨⟨index, .ranks start stop, false, taken conjuncts used⟩, used⟩

/-- The scan of an index, by ranks if it can be. -/
def matchIndex? (conjuncts : List Filter) (index : Index) : Option IndexMatch :=
  if index.isRank then (matchRank? conjuncts index).or (matchValue? conjuncts index)
  else matchValue? conjuncts index

/-- Whether the entries of an index carry every field that the caller and the residual read. -/
def isCovering (c : PlanningContext) (index : Index) (residual : Filter)
    (required : Option (List String)) : Bool :=
  match required with
  | none => false
  | some required =>
    (required ++ residual.fields).all fun f => f = c.recordType.primaryKey || index.storesField f

/-- A matched scan under the residual of the other conjuncts. -/
def scanPlan (c : PlanningContext) (conjuncts : List Filter) (required : Option (List String))
    (m : IndexMatch) : Plan :=
  let rest := residual conjuncts m.used
  (Plan.indexScan { m.scan with covering := c.isCovering m.scan.index rest required }).withResidual
    rest

/-- Whether a scan binds every field of its key to one value. -/
def isPoint (m : IndexMatch) : Bool :=
  match m.scan.bounds with
  | .keys range => range.equal.length = m.scan.index.keyFields.length && !range.hasRange
  | .ranks .. => false

/-- The look-up of a full key in the first unique index that allows it. -/
def pointPlan? (c : PlanningContext) (conjuncts : List Filter) (required : Option (List String)) :
    Option Plan :=
  (((c.indexes.filter (·.unique)).filterMap (matchValue? conjuncts)).find? isPoint).map
    (c.scanPlan conjuncts required)

/-! ## Lists of values -/

/-- For a list of at least two values on a field that some index leads with: the field, the distinct
values and the first such index. -/
def joinable? (c : PlanningContext) : Filter → Option (String × List Value × Index)
  | .oneOf field values =>
    let values := Value.sortDistinct values
    if values.length < 2 then none
    else
      ((c.catalog.indexesLeading c.recordType.name field).find? (·.isPlannable)).map
        (field, values, ·)
  | _ => none

/-- The look-ups of the values of each list that is not too long. -/
def joinPlans (c : PlanningContext) (conjuncts : List Filter) : List Plan :=
  conjuncts.zipIdx.filterMap fun (f, i) =>
    match c.joinable? f with
    | none => none
    | some (field, values, index) =>
      if c.settings.maxInValues < values.length then none
      else
        some ((Plan.inJoin field values index c.settings.inJoinBatch).withResidual
          (residual conjuncts [i]))

/-- The lists that are too long to be looked up: field and number of values. -/
def overlongLists (c : PlanningContext) (conjuncts : List Filter) : List (String × Nat) :=
  conjuncts.filterMap fun f =>
    match c.joinable? f with
    | none => none
    | some (field, values, _) =>
      if c.settings.maxInValues < values.length then some (field, values.length) else none

/-! ## Combinations -/

/-- Takes scans from a list as long as they use conjuncts that no earlier one uses. -/
def takeDisjoint : List Nat → List IndexMatch → List IndexMatch
  | _, [] => []
  | used, m :: rest =>
    if m.used.any used.contains then takeDisjoint used rest
    else m :: takeDisjoint (m.used ++ used) rest

/-- Scans that use different conjuncts, those with the smallest estimate first. -/
def disjointScans (c : PlanningContext) (scans : List IndexMatch) : List IndexMatch :=
  let sized := (scans.filter fun m => !m.scan.bounds.isEmptyWindow).map fun m =>
    ((c.costModel.estimate (.indexScan m.scan)).rows, m)
  takeDisjoint [] ((sized.mergeSort fun a b => a.1 ≤ b.1).map (·.2))

/-- The key on which plans can be merged. -/
def mergeKey? (c : PlanningContext) (plans : List Plan) : Option (List String) :=
  RowOrder.sharedMergeKey (Plan.orders c.recordType plans) c.recordType.primaryKey

/-- The intersection of scans that use different conjuncts. -/
def intersectionPlan? (c : PlanningContext) (conjuncts : List Filter) (scans : List IndexMatch) :
    Option Plan :=
  let chosen := c.disjointScans scans
  if chosen.length < 2 then none
  else
    let children := chosen.map fun m => Plan.indexScan m.scan
    some ((Plan.intersection children (c.mergeKey? children)).withResidual
      (residual conjuncts (chosen.flatMap (·.used))))

/-- The union of a plan for each of at least two branches, if every branch has one. -/
def unionPlan? (c : PlanningContext) (branches : List (Option Plan)) : Option Plan :=
  if branches.length < 2 then none
  else
    (branches.mapM id).map fun children =>
      .union children (some c.recordType.primaryKey) (c.mergeKey? children)

/-- Every plan by index for a conjunction. `unions` holds, for each conjunct, the union over its
branches if it is a disjunction that has one. -/
def indexPlans (c : PlanningContext) (conjuncts : List Filter) (required : Option (List String))
    (unions : List (Option Plan)) : List Plan :=
  let scans := c.indexes.filterMap (matchIndex? conjuncts)
  scans.map (c.scanPlan conjuncts required) ++ c.joinPlans conjuncts ++
    (c.intersectionPlan? conjuncts scans).toList ++
    unions.zipIdx.filterMap fun (union, i) => union.map (·.withResidual (residual conjuncts [i]))

/-- The best plan by index for a branch with the given conjuncts. -/
def branchPlanOf? (c : PlanningContext) (conjuncts : List Filter) (unions : List (Option Plan)) :
    Option Plan :=
  (c.pointPlan? conjuncts none).or
    (Plan.best? (Plan.compareByCost c.costModel) (c.indexPlans conjuncts none unions))

mutual

/-- The best plan by index for a branch of a disjunction. -/
def branchPlan? (c : PlanningContext) : Filter → Option Plan
  | .all children => c.branchPlanOf? children (c.conjunctUnions children)
  | .any children =>
    c.branchPlanOf? [.any children] [c.unionPlan? (c.branchPlans children)]
  | .compare field op value => c.branchPlanOf? [.compare field op value] []
  | .oneOf field values => c.branchPlanOf? [.oneOf field values] []
  | .rank field op n => c.branchPlanOf? [.rank field op n] []
  | .not child => c.branchPlanOf? [.not child] []

/-- The best plan by index for each branch. -/
def branchPlans (c : PlanningContext) : List Filter → List (Option Plan)
  | [] => []
  | f :: rest => c.branchPlan? f :: c.branchPlans rest

/-- The union over the branches of a conjunct, if it is a disjunction that has one. -/
def conjunctUnion? (c : PlanningContext) : Filter → Option Plan
  | .any children => c.unionPlan? (c.branchPlans children)
  | _ => none

/-- The union for each conjunct. -/
def conjunctUnions (c : PlanningContext) : List Filter → List (Option Plan)
  | [] => []
  | f :: rest => c.conjunctUnion? f :: c.conjunctUnions rest

end

/-- The full scan under the whole filter, if the settings allow it. -/
def fullScanPlan? (c : PlanningContext) (filter : Filter) : Option Plan :=
  if c.settings.allowFullScan then some ((Plan.fullScan c.recordType.name).withResidual filter)
  else none

/-- The union over the conjunctions of the disjunctive form. -/
def expandedUnion? (c : PlanningContext) : Option Filter → Option Plan
  | some (.any terms) => c.unionPlan? (c.branchPlans terms)
  | _ => none

/-- Keeps the first of plans that are equal. -/
def distinctPlans : List Plan → List Plan → List Plan
  | _, [] => []
  | seen, p :: rest =>
    if seen.contains p then distinctPlans seen rest else p :: distinctPlans (p :: seen) rest

/-- The candidates for a query, each under the query's limit, and the lists that were too long. -/
def generate (c : PlanningContext) (r : Filter.Prepared) (q : Query) :
    List Plan × List (String × Nat) :=
  let conjuncts := r.filter.conjuncts
  match c.pointPlan? conjuncts q.requiredFields with
  | some plan => ([plan.withLimit q.limit], [])
  | none =>
    let plans := (c.fullScanPlan? r.filter).toList ++
      c.indexPlans conjuncts q.requiredFields (c.conjunctUnions conjuncts) ++
      (c.expandedUnion? r.expanded).toList
    (((distinctPlans [] plans).take c.settings.maxCandidates).map (·.withLimit q.limit),
      c.overlongLists conjuncts)

end PlanningContext

end RecordLayer
