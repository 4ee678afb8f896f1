import RecordLayer.Proofs.Candidates.Generation
import RecordLayer.Proofs.Plan.Orders
import RecordLayer.Proofs.Record
import RecordLayer.Proofs.Store.Insertion

/-!
# An unsettled index is declared wrongly

In an index that is not settled some field behind the primary key, the stray one, decides the
declared order before the primary key does, while in the index it is the other way round. Two
records that agree on the fields in front of the primary key, of which the one with the smaller
primary key has the larger stray field, show it: they can be stored, and the query for
everything has a scan of the index among its candidates, whose records come in another order
than the declared one.
-/

namespace RecordLayer

namespace Index

variable {c : Catalog} {t : RecordType} {i : Index} {stray : String}

/-- An index over one field is settled. -/
theorem settled_of_single {key : String} (h : i.keyFields = [key]) : i.Settled c t := by
  by_cases hpk : key = t.primaryKey
  · exact .inl (by rw [h, hpk]; rfl)
  · refine .inr (.inl ?_)
    simp [Index.behind, h, hpk]

/-- The first field behind the primary key that is neither the primary key nor in front of it. -/
structure Strays (t : RecordType) (i : Index) (stray : String) : Prop where
  ne_primaryKey : stray ≠ t.primaryKey
  not_inFront : stray ∉ i.inFront t
  behind : ∃ before after, i.behind t = before ++ stray :: after ∧
    ∀ f ∈ before, f = t.primaryKey ∨ f ∈ i.inFront t

theorem exists_stray (h : ¬i.Settled c t) : ∃ stray, i.Strays t stray := by
  have hbehind : ¬∀ f ∈ i.behind t, f = t.primaryKey ∨ f ∈ i.inFront t := fun hall =>
    h (.inr (.inl hall))
  cases hfind : (i.behind t).find? fun f => f != t.primaryKey && !(i.inFront t).contains f with
  | none =>
    refine absurd (fun f hf => ?_) hbehind
    have hnot := List.find?_eq_none.1 hfind f hf
    by_cases hpk : f = t.primaryKey
    · exact .inl hpk
    · exact .inr (by simpa [hpk] using hnot)
  | some stray =>
    obtain ⟨hstray, before, after, heq, hbefore⟩ := List.find?_eq_some_iff_append.1 hfind
    rw [Bool.and_eq_true] at hstray
    refine ⟨stray, by simpa using hstray.1, by simpa using hstray.2, before, after, heq,
      fun f hf => ?_⟩
    have hnot := hbefore f hf
    by_cases hpk : f = t.primaryKey
    · exact .inl hpk
    · exact .inr (by simpa [hpk] using hnot)

/-! ## Two records that tell the orders apart -/

/-- The record with the smaller primary key: only its stray field is large. -/
def early (t : RecordType) (stray : String) : Record := t.sample (· == stray)

/-- The record with the larger primary key: it differs from the other one in every field that is not
in front of the primary key. -/
def late (t : RecordType) (i : Index) (stray : String) : Record :=
  t.sample fun f => !(i.inFront t).contains f && f != stray

theorem Strays.early_eq_late (h : i.Strays t stray) {f : String} (hf : f ∈ i.inFront t) :
    t.valueOf (early t stray) f = t.valueOf (late t i stray) f := by
  have hne : f ≠ stray := fun heq => h.not_inFront (heq ▸ hf)
  exact RecordType.valueOf_sample_eq (by simp [hf, hne])

theorem early_lt_late {f : String} (hfield : t.hasField f = true) (hf : f ∉ i.inFront t)
    (hne : f ≠ stray) :
    (t.valueOf (early t stray) f).compare (t.valueOf (late t i stray) f) = .lt :=
  RecordType.compare_valueOf_sample hfield (by simp [hne]) (by simp [hf, hne])

theorem late_lt_early (i : Index) (hfield : t.hasField stray = true) :
    (t.valueOf (late t i stray) stray).compare (t.valueOf (early t stray) stray) = .lt :=
  RecordType.compare_valueOf_sample hfield (by simp) (by simp)

theorem Strays.keyOf_lt (h : i.Strays t stray) :
    (t.keyOf (early t stray)).compare (t.keyOf (late t i stray)) = .lt := by
  rw [← RecordType.valueOf_primaryKey, ← RecordType.valueOf_primaryKey]
  exact early_lt_late t.hasField_primaryKey (fun hmem => ne_of_mem_inFront hmem rfl)
    h.ne_primaryKey.symm

/-- The two records differ in every field that is not in front of the primary key. -/
theorem early_ne_late {f : String} (hfield : t.hasField f = true)
    (hf : f ∉ i.inFront t) :
    t.valueOf (early t stray) f ≠ t.valueOf (late t i stray) f := by
  intro heq
  by_cases hne : f = stray
  · subst hne
    have hlt := late_lt_early i hfield
    rw [heq, Value.compare_self] at hlt
    cases hlt
  · have hlt := early_lt_late hfield hf hne
    rw [heq, Value.compare_self] at hlt
    cases hlt

/-- In the index the record with the smaller primary key comes first. -/
theorem Strays.entryOf_lt (h : i.Strays t stray) :
    (i.entryOf t (early t stray)).compare (i.entryOf t (late t i stray)) = .lt := by
  obtain ⟨before, after, hbehind, -⟩ := h.behind
  have hkey : i.keyFields = i.inFront t ++ i.behind t := (inFront_append_behind i t).symm
  have hfront : ∀ f ∈ i.inFront t, t.valueOf (early t stray) f = t.valueOf (late t i stray) f :=
    fun f hf => h.early_eq_late hf
  -- what is behind begins with the primary key
  obtain ⟨rest, hrest⟩ : ∃ rest, i.behind t = t.primaryKey :: rest := by
    rcases behind_cases i t with hnil | hcons
    · rw [hnil] at hbehind
      cases before <;> cases hbehind
    · exact hcons
  rw [compare_entryOf, hkey, RecordType.compareBy_append_of_eq hfront, hrest,
    RecordType.compareBy_cons, RecordType.valueOf_primaryKey, RecordType.valueOf_primaryKey,
    h.keyOf_lt]
  rfl

/-- In the declared order it comes last. -/
theorem Strays.declared_gt (h : i.Strays t stray) (hfield : t.hasField stray = true)
    (hlast : i.keyFields.getLast? ≠ some t.primaryKey) :
    t.compareBy (RowOrder.endingIn t.primaryKey i.keyFields) (early t stray) (late t i stray) =
      .gt := by
  obtain ⟨before, after, hbehind, hbefore⟩ := h.behind
  have hsame : ∀ f ∈ (i.inFront t ++ before).filter (· != t.primaryKey),
      t.valueOf (early t stray) f = t.valueOf (late t i stray) f := by
    intro f hf
    obtain ⟨hf, hne⟩ := List.mem_filter.1 hf
    refine h.early_eq_late ?_
    rcases List.mem_append.1 hf with hf | hf
    · exact hf
    · exact (hbefore f hf).resolve_left (by simpa using hne)
  have hkey : i.keyFields = (i.inFront t ++ before) ++ stray :: after := by
    rw [← inFront_append_behind i t, hbehind, List.append_assoc]
  have hgt :
      (t.valueOf (early t stray) stray).compare (t.valueOf (late t i stray) stray) = .gt := by
    rw [Value.compare_swap, late_lt_early i hfield]
    rfl
  -- the stray field is the first one in the declared order that tells the records apart
  rw [RowOrder.endingIn, if_neg hlast, hkey, List.filter_append, List.filter_cons_of_pos
    (by simpa using h.ne_primaryKey), List.append_assoc,
    RecordType.compareBy_append_of_eq hsame, List.cons_append, RecordType.compareBy_cons, hgt]
  rfl

/-- The two records can be stored. -/
theorem Strays.admits (h : i.Strays t stray) (hc : c.Sound)
    (ht : c.recordType? t.name = some t) (hsettled : ¬i.Settled c t) :
    c.Admits t [early t stray, late t i stray] where
  valid r hr := by
    rcases List.mem_cons.1 hr with rfl | hr
    · exact t.validate_sample _
    · rw [List.mem_singleton.1 hr]
      exact t.validate_sample _
  keys := by
    have hne : t.keyOf (early t stray) ≠ t.keyOf (late t i stray) := fun heq => by
      have hlt := h.keyOf_lt
      rw [heq, Value.compare_self] at hlt
      cases hlt
    simpa using hne
  unique u hu hunique := by
    -- some key field of the index is not in front, and there the records differ
    obtain ⟨f, hf, hout⟩ : ∃ f ∈ u.keyFields, f ∉ i.inFront t := by
      refine Classical.byContradiction fun hall =>
        hsettled (.inr (.inr ⟨u, hu, hunique, fun f hf => ?_⟩))
      exact Classical.byContradiction fun hout => hall ⟨f, hf, hout⟩
    have hfield := (hc.fits ht (Catalog.mem_plannableIndexes.1 hu).1).field f
      (List.mem_append_left _ hf)
    have hne : u.keyOf t (early t stray) ≠ u.keyOf t (late t i stray) := fun heq =>
      early_ne_late hfield hout (List.map_inj_left.1 heq f hf)
    simpa using hne

end Index

namespace PlanningContext

/-! ## The query for everything -/

variable {c : PlanningContext} {i : Index} {field : String}

/-- The condition that every record satisfies. -/
def atLeastNull (field : String) : Filter := .compare field .ge .null

/-- The scan of an index that binds its first field by that condition. -/
def openScan (i : Index) (field : String) : IndexScan :=
  ⟨i, .keys ⟨[], .included .null, .unbounded⟩, false, [atLeastNull field]⟩

theorem findEquality_atLeastNull (used : List Nat) (field field' : String) :
    findComparison [atLeastNull field] used field' (· == .eq) = none := by
  simp [findComparison, atLeastNull]

theorem matchIndex_atLeastNull (hlead : i.leadingField? = some field) (hrank : i.isRank = false) :
    matchIndex? [atLeastNull field] i = some ⟨openScan i field, [0]⟩ := by
  obtain ⟨rest, hkey⟩ := List.head?_eq_some_iff.1 hlead
  have hlower : findComparison [atLeastNull field] [] field (·.isLowerBound) =
      some (0, .ge, .null) := by
    simp [findComparison, atLeastNull, Comparator.isLowerBound]
  have hupper : findComparison [atLeastNull field] (usedAt (some (0, .ge, .null)) ++ []) field
      (·.isUpperBound) = none := by
    simp [findComparison, atLeastNull, Comparator.isUpperBound]
  rw [matchIndex?, hrank, if_neg (by simp), matchValue?, hkey,
    bindKey_bounds rest [] (findEquality_atLeastNull [] field field) hlower hupper]
  rfl

/-- No index binds a field to one value, so there is no point look-up. -/
theorem pointPlan_atLeastNull (c : PlanningContext) (required : Option (List String)) :
    c.pointPlan? [atLeastNull field] required = none := by
  rw [pointPlan?, Option.map_eq_none_iff]
  refine List.find?_eq_none.2 fun m hm => ?_
  obtain ⟨index, hindex, hmatch⟩ := List.mem_filterMap.1 hm
  have hplannable := (Catalog.mem_plannableIndexes.1 (List.mem_filter.1 hindex).1).2
  cases hkey : index.keyFields with
  | nil => simp [Index.isPlannable, hkey] at hplannable
  | cons first rest =>
    rw [matchValue?, hkey, bindKey_bounds rest [] (findEquality_atLeastNull [] field first) rfl rfl]
      at hmatch
    dsimp only at hmatch
    split at hmatch
    · cases hmatch
    · obtain rfl := Option.some.inj hmatch
      simp [isPoint, hkey]

theorem mem_distinctPlans {plans : List Plan} {p : Plan} :
    ∀ {seen : List Plan}, p ∈ plans → p ∉ seen → p ∈ distinctPlans seen plans := by
  induction plans with
  | nil => intro seen hp; cases hp
  | cons q rest ih =>
    intro seen hp hseen
    rw [distinctPlans]
    by_cases hpq : p = q
    · rw [if_neg (by simpa [← hpq] using hseen), hpq]
      simp
    · have hp := (List.mem_cons.1 hp).resolve_left hpq
      split
      · exact ih hp hseen
      · exact List.mem_cons_of_mem _ (ih hp (by simp [hpq, hseen]))

theorem length_distinctPlans_le (plans seen : List Plan) :
    (distinctPlans seen plans).length ≤ plans.length := by
  induction plans generalizing seen with
  | nil => simp [distinctPlans]
  | cons q rest ih =>
    rw [distinctPlans]
    have hrest := ih seen
    have hmore := ih (q :: seen)
    split <;> simp only [List.length_cons] <;> omega

/-- There are not many plans for a query with one conjunct. -/
theorem length_plans_le (c : PlanningContext) (f : Filter) (expanded : Option Filter)
    (required : Option (List String)) (unions : List (Option Plan)) :
    ((c.fullScanPlan? f).toList ++ c.indexPlans [f] required unions ++
      (c.expandedUnion? expanded).toList).length ≤ c.indexes.length + unions.length + 4 := by
  have hoption : ∀ o : Option Plan, o.toList.length ≤ 1 := fun o => by cases o <;> simp
  have hscans := List.length_filterMap_le (matchIndex? [f]) c.indexes
  have hjoins : (c.joinPlans [f]).length ≤ 1 := List.length_filterMap_le _ _
  have hunions : ∀ g : Option Plan × Nat → Option Plan,
      (unions.zipIdx.filterMap g).length ≤ unions.length := fun g => by
    simpa using List.length_filterMap_le g unions.zipIdx
  simp only [indexPlans, List.length_append, List.length_map]
  have := hoption (c.fullScanPlan? f)
  have := hoption (c.expandedUnion? expanded)
  have := hoption (c.intersectionPlan? [f] (c.indexes.filterMap (matchIndex? [f])))
  have := hunions fun x => x.1.map (·.withResidual (residual [f] [x.2]))
  omega

/-- **The scan of an index is among the candidates of the query for everything,** if enough
candidates are weighed. -/
theorem openScan_mem_generate (hi : i ∈ c.indexes) (hlead : i.leadingField? = some field)
    (hrank : i.isRank = false) (hmany : c.indexes.length + 5 ≤ c.settings.maxCandidates)
    {prepared : Filter.Prepared} (hprepared : prepared.filter = atLeastNull field) {q : Query}
    (hlimit : q.limit = none) (hrequired : q.requiredFields = none) :
    .indexScan (openScan i field) ∈ (c.generate prepared q).1 := by
  have hconjuncts : prepared.filter.conjuncts = [atLeastNull field] := by
    rw [hprepared]
    rfl
  have hscan : c.scanPlan [atLeastNull field] none ⟨openScan i field, [0]⟩ =
      .indexScan (openScan i field) := rfl
  unfold generate
  rw [hconjuncts, hrequired, hlimit]
  dsimp only
  rw [pointPlan_atLeastNull]
  dsimp only
  refine List.mem_map.2 ⟨.indexScan (openScan i field), ?_, rfl⟩
  -- the candidates are so few that none is cut off
  rw [List.take_of_length_le]
  · refine mem_distinctPlans (List.mem_append_left _ (List.mem_append_right _ ?_)) (by simp)
    simp only [indexPlans, List.mem_append]
    refine .inl (.inl (.inl (List.mem_map.2 ⟨_, List.mem_filterMap.2 ⟨i, hi, ?_⟩, hscan⟩)))
    exact matchIndex_atLeastNull hlead hrank
  · have hlength := length_distinctPlans_le ((c.fullScanPlan? prepared.filter).toList ++
      c.indexPlans [atLeastNull field] none (c.conjunctUnions [atLeastNull field]) ++
      (c.expandedUnion? prepared.expanded).toList) []
    have hbound := c.length_plans_le (atLeastNull field) prepared.expanded none
      (c.conjunctUnions [atLeastNull field])
    have hunions : (c.conjunctUnions [atLeastNull field]).length = 1 := rfl
    rw [hprepared] at hlength ⊢
    omega

end PlanningContext

namespace Index

open CursorNode PlanningContext

variable {v : StoreView} {t : RecordType} {rows : List Record} {c : ExecutionContext} {i : Index}
  {stray field : String}

/-- Every record satisfies the condition of the query for everything. -/
theorem atLeastNull_holds (value : String → Value) (rankOf : String → Value → UInt64) :
    (atLeastNull field).holds value rankOf = true := by
  rw [atLeastNull, Filter.holds_compare, Comparator.test, Comparator.accepts, bne_iff_ne]
  exact Value.compare_null_ne_lt _

/-- **Where the two records are stored, the scan of the unsettled index does not
keep its order.** -/
theorem Strays.not_keepsOrder (h : i.Strays t stray) (ho : c.Over v t) (hserves : v.Serves t rows)
    (hc : v.catalog.Sound) (hi : i ∈ v.catalog.plannableIndexes t.name)
    (hlead : i.leadingField? = some field) (hrank : i.isRank = false)
    (hlast : i.keyFields.getLast? ≠ some t.primaryKey)
    (hrows : rows.Perm [early t stray, late t i stray]) :
    ¬(Plan.indexScan (openScan i field)).KeepsOrder c v t := by
  intro hkeeps
  have hfits := hc.fits hserves.recordType (Catalog.mem_plannableIndexes.1 hi).1
  have hmatches : PlanningContext.Matches ⟨v.catalog, t, {}, {}⟩ [atLeastNull field]
      ⟨openScan i field, [0]⟩ :=
    matches_index hc hserves.recordType hi (matchIndex_atLeastNull hlead hrank)
  have hcount : rows.length < UInt64.size := by
    rw [hrows.length_eq]
    show 2 < UInt64.size
    decide
  have hexact : (openScan i field).Exact := hmatches.exact
  have hanswers := Plan.answers_scan hserves hc hcount hi hmatches.rank hexact c.consistency
  have hbuild : c.build (.indexScan (openScan i field)) = _ :=
    Plan.build_indexScan ho hi hmatches.rank
  have hstored : ∀ r, r ∈ [early t stray, late t i stray] →
      r ∈ (i.sorted t rows).filter ((openScan i field).finds t rows) := fun r hr =>
    (hanswers.mem r).2 ⟨hrows.mem_iff.2 hr, atLeastNull_holds _ _⟩
  have hasc := (i.sorted_ascending t hserves.keys_ne).filter ((openScan i field).finds t rows)
  -- what the scan yields is in both orders
  obtain ⟨out, hyields, hsorts⟩ := hkeeps.sorted _ rfl
  have hout := hyields.unique (Plan.yields_of_drains hbuild hanswers.drains)
  have hid : imageOf t (openScan i field).index (openScan i field).covering = id := rfl
  rw [hid, List.map_id] at hout
  have hboth := hasc.and (hout ▸ hsorts.sorted)
  obtain ⟨before, after, hsplit⟩ := List.append_of_mem (hstored (early t stray) (by simp))
  have hlate := hstored (late t i stray) (by simp)
  rw [show (openScan i field).index = i from rfl] at hboth
  rw [hsplit] at hboth hlate
  obtain ⟨-, hafter, hbefore⟩ := List.pairwise_append.1 hboth
  have hdeclared := h.declared_gt
    (hfits.field stray (List.mem_append_left _ ?_)) hlast
  · rcases List.mem_append.1 hlate with hlate | hlate
    · have hlt := (hbefore _ hlate (early t stray) (by simp)).1
      rw [EntryKey.compare_swap, h.entryOf_lt] at hlt
      cases hlt
    · rcases List.mem_cons.1 hlate with heq | hlate
      · have hlt := h.keyOf_lt
        rw [heq, Value.compare_self] at hlt
        cases hlt
      · exact ((List.pairwise_cons.1 hafter).1 _ hlate).2 hdeclared
  · obtain ⟨front, back, hbehind, -⟩ := h.behind
    rw [← inFront_append_behind i t, hbehind]
    simp

end Index

end RecordLayer
