import RecordLayer.Proofs.Candidates.Making
import RecordLayer.Proofs.Candidates.Matching
import RecordLayer.Proofs.Filter.Prepared

/-!
# Candidates mean the query

Every candidate for a query fits the record type, and its matching filter, limits aside, holds for
the same records as the query's filter. The other modules take it from there: what fits runs, and
gives the records for which the matching filter holds.

`Fulfils` is kept by each of the ways in which plans are made, and so the plans for branches have it
by `branch_induction`.
-/

namespace RecordLayer

/-- What a plan makes of a record keeps the primary key and the required fields, or everything. -/
def RecordType.Keeps (t : RecordType) (required : Option (List String))
    (image : Record → Record) : Prop :=
  match required with
  | none => image = id
  | some fields => ∀ r, t.validate r = .ok () → ∀ f, f = t.primaryKey ∨ f ∈ fields →
      t.valueOf (image r) f = t.valueOf r f

theorem RecordType.keeps_id (t : RecordType) (required : Option (List String)) :
    t.Keeps required id := by
  cases required with
  | none => rfl
  | some fields => exact fun _ _ _ _ => rfl

/-- A valid query is for a registered type, has a limit that lets something through, and speaks of
declared fields and of ranks that some index answers. -/
theorem Query.validate_eq_ok {q : Query} {catalog : Catalog} {t : RecordType} :
    q.validate catalog = .ok t ↔ catalog.recordType? q.recordType = some t ∧ q.limit ≠ some 0 ∧
      (∀ f ∈ q.filter.fields ++ q.requiredFields.getD [], t.hasField f = true) ∧
      ∀ f ∈ q.filter.rankFields, (catalog.rankIndex? t.name f).isSome = true := by
  unfold validate
  cases ht : catalog.recordType? q.recordType with
  | none => simp
  | some type =>
    simp only [Option.some.injEq]
    by_cases hlimit : q.limit = some 0
    · -- each check that refuses contradicts one part of the right side
      simp [hlimit]
    rw [if_neg hlimit]
    cases hfields : (q.filter.fields ++ q.requiredFields.getD []).find? fun f =>
      !type.hasField f with
    | some f =>
      have hmem := List.mem_of_find?_eq_some hfields
      have hnot : ¬type.hasField f = true := by simpa using List.find?_some hfields
      refine iff_of_false nofun ?_
      rintro ⟨rfl, -, hall, -⟩
      exact hnot (hall f hmem)
    | none =>
      have hall : ∀ f ∈ q.filter.fields ++ q.requiredFields.getD [], type.hasField f = true :=
        fun f hf => by simpa using List.find?_eq_none.1 hfields f hf
      dsimp only
      cases hranks : q.filter.rankFields.find? fun f => (catalog.rankIndex? type.name f).isNone with
      | some f =>
        have hmem := List.mem_of_find?_eq_some hranks
        have hnot : ¬(catalog.rankIndex? type.name f).isSome = true := by
          simpa using List.find?_some hranks
        refine iff_of_false nofun ?_
        rintro ⟨rfl, -, -, hindexed⟩
        exact hnot (hindexed f hmem)
      | none =>
        have hindexed : ∀ f ∈ q.filter.rankFields,
            (catalog.rankIndex? type.name f).isSome = true := fun f hf => by
          simpa [Option.isNone_iff_eq_none, Option.isSome_iff_ne_none] using
            List.find?_eq_none.1 hranks f hf
        constructor
        · intro h
          obtain rfl := Except.ok.inj h
          exact ⟨rfl, hlimit, hall, hindexed⟩
        · rintro ⟨rfl, -⟩
          rfl

/-- What validation promises of a query. -/
theorem Query.validate_spec {q : Query} {catalog : Catalog} {t : RecordType}
    (h : q.validate catalog = .ok t) : t.name = q.recordType ∧
      catalog.recordType? t.name = some t ∧ q.filter.Known catalog t := by
  obtain ⟨ht, -, hfields, hranks⟩ := Query.validate_eq_ok.1 h
  have hname : t.name = q.recordType := (Catalog.mem_of_recordType? ht).2
  exact ⟨hname, by rwa [hname],
    Filter.over_of_fields (fun f hf => hfields f (List.mem_append_left _ hf)) hranks⟩

/-- The bounds of valid settings are positive. -/
theorem PlannerSettings.bound_ne_zero {s : PlannerSettings} (h : s.validate = .ok ())
    {bound : String × Nat} (hbound : bound ∈ s.bounds) : bound.2 ≠ 0 := by
  intro hzero
  unfold validate at h
  cases hfound : s.bounds.find? (·.2 == 0) with
  | some found => simp [hfound] at h
  | none => simpa [hzero] using List.find?_eq_none.1 hfound bound hbound

theorem PlannerSettings.inJoinBatch_ne_zero {s : PlannerSettings} (h : s.validate = .ok ()) :
    s.inJoinBatch ≠ 0 :=
  bound_ne_zero h (show ("in_join_batch_size", s.inJoinBatch) ∈ s.bounds by simp [bounds])

namespace PlanningContext

open CursorNode

/-- The context is about a registered record type, and look-ups are not batched by zero. -/
structure Ready (c : PlanningContext) : Prop where
  sound : c.catalog.Sound
  recordType : c.catalog.recordType? c.recordType.name = some c.recordType
  batch : c.settings.inJoinBatch ≠ 0

/-- The plan fits and its matching filter means the given one. -/
structure Fulfils (c : PlanningContext) (f : Filter) (p : Plan) (image : Record → Record) :
    Prop where
  fits : p.Fits c.catalog c.recordType image
  means : ∀ value rankOf, p.matchingFilter.holds value rankOf = f.holds value rankOf

theorem ready {catalog : Catalog} {t : RecordType} {settings : PlannerSettings}
    {snapshot : StatisticsSnapshot} (hc : catalog.Sound) (ht : catalog.recordType? t.name = some t)
    (hs : settings.validate = .ok ()) : Ready ⟨catalog, t, snapshot, settings⟩ :=
  ⟨hc, ht, PlannerSettings.inJoinBatch_ne_zero hs⟩

variable {c : PlanningContext} {conjuncts : List Filter} {p : Plan} {image : Record → Record}

/-- The filter speaks of fields that the context knows. -/
abbrev Knows (c : PlanningContext) (f : Filter) : Prop := f.Known c.catalog c.recordType

theorem Fulfils.congr {f g : Filter} (h : c.Fulfils f p image)
    (heq : ∀ value rankOf, f.holds value rankOf = g.holds value rankOf) : c.Fulfils g p image :=
  ⟨h.fits, fun value rankOf => (h.means value rankOf).trans (heq value rankOf)⟩

/-! ## Residual filters -/

theorem Fulfils.withResidual {f g : Filter} (h : c.Fulfils f p image) (hknown : c.Knows g)
    (hread : g.Over (fun field => ∀ r, c.recordType.validate r = .ok () →
      c.recordType.valueOf (image r) field = c.recordType.valueOf r field) fun _ => True) :
    c.Fulfils (.all [f, g]) (p.withResidual g) image := by
  unfold Plan.withResidual
  split
  · rename_i hg
    refine h.congr fun value rankOf => ?_
    rw [Filter.eq_always_of_isAlways hg]
    simp [Filter.always]
  · refine ⟨.filter h.fits hknown hread, fun value rankOf => ?_⟩
    rw [Plan.matchingFilter_filter_holds, h.means]
    simp

/-- A residual on whole records. -/
theorem Fulfils.withResidual_id {f g : Filter} (h : c.Fulfils f p id) (hknown : c.Knows g) :
    c.Fulfils (.all [f, g]) (p.withResidual g) id :=
  h.withResidual hknown (hknown.mono (fun _ _ _ _ => rfl) fun _ _ => trivial)

/-- A plan for the conjuncts at some positions, under the residual of the others. -/
theorem Fulfils.conjoin {f : Filter} {used : List Nat} (h : c.Fulfils f p id)
    (hknown : ∀ f ∈ conjuncts, c.Knows f)
    (hf : ∀ value rankOf, f.holds value rankOf = true ↔ Enforced conjuncts used value rankOf) :
    c.Fulfils (.all conjuncts) (p.withResidual (residual conjuncts used)) id := by
  exact (h.withResidual_id (residual_over hknown)).congr fun value rankOf =>
    taken_and_residual (hf value rankOf)

/-! ## Scans -/

theorem read_of_isCovering {index : Index} {rest : Filter} {required : Option (List String)}
    (h : c.isCovering index rest required = true) : ∃ fields, required = some fields ∧
      ∀ f ∈ fields ++ rest.fields, f = c.recordType.primaryKey ∨ index.storesField f = true := by
  cases required with
  | none => cases h
  | some fields => exact ⟨fields, rfl, by simpa [isCovering, or_imp, forall_and] using h⟩

/-- What a scan hands over agrees with the record on the key, on what is asked for and on what the
residual conjuncts read. -/
theorem valueOf_imageOf {required : Option (List String)} {m : IndexMatch} {covering : Bool}
    (h : c.isCovering m.scan.index (residual conjuncts m.used) required = covering) {f : String}
    (hf : f = c.recordType.primaryKey ∨ (∃ fields, required = some fields ∧ f ∈ fields) ∨
      f ∈ (residual conjuncts m.used).fields) {r : Record} (hr : c.recordType.validate r = .ok ()) :
    c.recordType.valueOf (imageOf c.recordType m.scan.index covering r) f =
      c.recordType.valueOf r f := by
  cases covering with
  | false => rfl
  | true =>
    obtain ⟨fields, hfields, hstored⟩ := read_of_isCovering h
    refine Index.valueOf_project hr ?_
    rcases hf with hf | ⟨fields', hfields', hf⟩ | hf
    · exact .inl hf
    · rw [hfields] at hfields'
      cases hfields'
      exact hstored f (List.mem_append_left _ hf)
    · exact hstored f (List.mem_append_right _ hf)

/-- **The plan of a matched scan fulfils the conjunction,** and gives what the caller reads. -/
theorem scanPlan_fulfils (hknown : ∀ f ∈ conjuncts, c.Knows f) (required : Option (List String))
    {m : IndexMatch} (hm : c.Matches conjuncts m) :
    ∃ image, c.Fulfils (.all conjuncts) (c.scanPlan conjuncts required m) image ∧
      c.recordType.Keeps required image := by
  generalize hcovering :
    c.isCovering m.scan.index (residual conjuncts m.used) required = covering
  have hscan : c.Fulfils (.all (taken conjuncts m.used))
      (.indexScan { m.scan with covering }) (imageOf c.recordType m.scan.index covering) := by
    refine ⟨.indexScan hm.index hm.rank hm.exact fun f hf => ?_, fun value rankOf => ?_⟩
    · exact hknown f (subset_of_taken (hm.matched ▸ hf))
    · rw [Plan.matchingFilter_indexScan_holds, hm.matched, Filter.holds_all]
  have hrest : c.Knows (residual conjuncts m.used) := residual_over hknown
  refine ⟨imageOf c.recordType m.scan.index covering, ?_, ?_⟩
  · have hplan := hscan.withResidual hrest (Filter.over_of_fields
      (fun f hf r hr => valueOf_imageOf hcovering (.inr (.inr hf)) hr) fun _ _ => trivial)
    rw [scanPlan, hcovering]
    refine hplan.congr fun value rankOf => taken_and_residual ?_
    rw [Filter.holds_all, taken_holds]
  · cases required with
    | none =>
      cases covering with
      | false => rfl
      | true => cases hcovering
    | some fields =>
      intro r hr f hf
      rcases hf with hf | hf
      · exact valueOf_imageOf hcovering (.inl hf) hr
      · exact valueOf_imageOf hcovering (.inr (.inl ⟨fields, rfl, hf⟩)) hr

/-! ## Lists of values -/

theorem inJoin_fulfils (hc : c.Ready) (hknown : ∀ f ∈ conjuncts, c.Knows f) {i : Nat}
    {field : String} {given : List Value} {index : Index}
    (hi : conjuncts[i]? = some (.oneOf field given))
    (hindex : index ∈ c.indexes) (hlead : index.leadingField? = some field) :
    c.Fulfils (.all conjuncts)
      ((Plan.inJoin field (Value.sortDistinct given) index c.settings.inJoinBatch).withResidual
        (residual conjuncts [i])) id := by
  have hfits : c.Fulfils (.oneOf field given)
      (.inJoin field (Value.sortDistinct given) index c.settings.inJoinBatch) id := by
    refine ⟨.inJoin hindex hlead (Value.sortDistinct_ascending given) hc.batch, fun value _ => ?_⟩
    rw [Plan.matchingFilter, Filter.holds_oneOf, Filter.holds_oneOf, Bool.eq_iff_iff]
    simp [Value.mem_sortDistinct]
  exact hfits.conjoin hknown fun value rankOf => (enforced_single hi).symm

/-! ## Intersections -/

theorem enforced_flatMap {scans : List IndexMatch} {value : String → Value}
    {rankOf : String → Value → UInt64} :
    Enforced conjuncts (scans.flatMap (·.used)) value rankOf ↔
      ∀ m ∈ scans, Enforced conjuncts m.used value rankOf := by
  simp only [Enforced, List.mem_flatMap]
  constructor
  · intro h m hm i hi
    exact h i ⟨m, hm, hi⟩
  · rintro h i ⟨m, hm, hi⟩
    exact h m hm i hi

/-- **The intersection of matched scans fulfils the conjunction.** -/
theorem intersection_fulfils (hknown : ∀ f ∈ conjuncts, c.Knows f) {scans : List IndexMatch}
    (hscans : ∀ m ∈ scans, c.Matches conjuncts m) (htwo : 2 ≤ scans.length) :
    c.Fulfils (.all conjuncts)
      ((Plan.intersection (scans.map fun m => .indexScan m.scan)
        (c.mergeKey? (scans.map fun m => .indexScan m.scan))).withResidual
          (residual conjuncts (scans.flatMap (·.used)))) id := by
  have hne : (scans.map fun m => Plan.indexScan m.scan) ≠ [] := by
    intro hnil
    rw [List.map_eq_nil_iff] at hnil
    subst hnil
    simp at htwo
  have hchildren : ∀ q ∈ scans.map fun m => Plan.indexScan m.scan,
      q.Fits c.catalog c.recordType id := by
    intro q hq
    obtain ⟨m, hm, rfl⟩ := List.mem_map.1 hq
    have hmatch := hscans m hm
    have hid : imageOf c.recordType m.scan.index m.scan.covering = id := by
      rw [hmatch.covering]
      rfl
    rw [← hid]
    exact .indexScan hmatch.index hmatch.rank hmatch.exact fun f hf =>
      hknown f (subset_of_taken (hmatch.matched ▸ hf))
  have hfits : c.Fulfils (.all (Plan.matchingFilters (scans.map fun m => Plan.indexScan m.scan)))
      (.intersection (scans.map fun m => Plan.indexScan m.scan)
        (c.mergeKey? (scans.map fun m => Plan.indexScan m.scan))) id :=
    ⟨.intersection hne hchildren fun key hkey => hkey, fun _ _ => by rw [Plan.matchingFilter]⟩
  -- what a scan leaves of the conjuncts is enforced by another scan or by the residual
  refine hfits.conjoin hknown fun value rankOf => ?_
  rw [enforced_flatMap, Plan.matchingFilters_eq, Filter.holds_all]
  simp only [List.map_map, List.all_map, List.all_eq_true, Function.comp_apply]
  refine forall_congr' fun m => forall_congr' fun hm => ?_
  rw [Plan.matchingFilter_indexScan_holds, (hscans m hm).matched, taken_holds]

/-! ## Unions -/

/-- **The union of plans for the branches fulfils the disjunction.** -/
theorem unionPlan_fulfils {branches : List Filter} {plan? : Filter → Option Plan}
    (hbranch : ∀ f ∈ branches, ∀ q, plan? f = some q → c.Fulfils f q id)
    (h : c.unionPlan? (branches.map plan?) = some p) : c.Fulfils (.any branches) p id := by
  obtain ⟨children, -, hchildren, rfl⟩ := unionPlan_eq_some h
  refine ⟨.union (fun q hq => ?_) fun key hkey => hkey, fun value rankOf => ?_⟩
  · obtain ⟨f, hf, hplan⟩ := exists_branch hchildren hq
    exact (hbranch f hf q hplan).fits
  · rw [Plan.matchingFilter, Plan.matchingFilters_eq, Filter.holds_any, Filter.holds_any,
      Bool.eq_iff_iff, List.any_map, List.any_eq_true, List.any_eq_true]
    simp only [Function.comp]
    constructor
    · rintro ⟨q, hq, hholds⟩
      obtain ⟨f, hf, hplan⟩ := exists_branch hchildren hq
      exact ⟨f, hf, by rwa [← (hbranch f hf q hplan).means]⟩
    · rintro ⟨f, hf, hholds⟩
      obtain ⟨q, hq, hplan⟩ := List.mem_map.1 (hchildren ▸ List.mem_map.2 ⟨f, hf, rfl⟩)
      exact ⟨q, hq, by rwa [(hbranch f hf q hplan.symm).means]⟩

/-! ## Branches -/

/-- **Every plan by index fulfils the conjunction,** and gives what the caller reads. -/
theorem Made.fulfils (hc : c.Ready) (hknown : ∀ f ∈ conjuncts, c.Knows f)
    {required : Option (List String)}
    (hunions : ∀ f ∈ conjuncts, ∀ q, c.conjunctUnion? f = some q → c.Fulfils f q id)
    (h : c.Made conjuncts required p) :
    ∃ image, c.Fulfils (.all conjuncts) p image ∧ c.recordType.Keeps required image := by
  have hscan : ∀ {index m}, index ∈ c.indexes → matchIndex? conjuncts index = some m →
      c.Matches conjuncts m := fun hindex hm => matches_index hc.sound hc.recordType hindex hm
  cases h with
  | point hindex _ hm _ => exact scanPlan_fulfils hknown required (matches_value hindex hm)
  | scan hindex hm => exact scanPlan_fulfils hknown required (hscan hindex hm)
  | lookUps hi hindex hlead _ _ =>
    exact ⟨id, inJoin_fulfils hc hknown hi hindex hlead, c.recordType.keeps_id required⟩
  | intersection hscans htwo _ =>
    refine ⟨id, intersection_fulfils hknown (fun m hm => ?_) htwo, c.recordType.keeps_id required⟩
    obtain ⟨index, hindex, hmatch⟩ := hscans m hm
    exact hscan hindex hmatch
  | union hi hq =>
    have hunion := hunions _ (List.mem_of_getElem? hi) _ hq
    exact ⟨id, hunion.conjoin hknown fun value rankOf => (enforced_single hi).symm,
      c.recordType.keeps_id required⟩

theorem conjuncts_holds (f : Filter) (value : String → Value) (rankOf : String → Value → UInt64) :
    (Filter.all f.conjuncts).holds value rankOf = f.holds value rankOf := by
  cases f <;> simp [Filter.conjuncts]

theorem conjuncts_known {f : Filter} (h : c.Knows f) : ∀ g ∈ f.conjuncts, c.Knows g := by
  cases f with
  | all children => exact Filter.Over.child_all h
  | _ => simpa [Filter.conjuncts] using h

/-- **The plan for a branch fulfils it,** and so does the union over a conjunct. -/
theorem branch_fulfils (hc : c.Ready) (f : Filter) (hknown : c.Knows f) :
    (∀ q, c.branchPlan? f = some q → c.Fulfils f q id) ∧
      ∀ q, c.conjunctUnion? f = some q → c.Fulfils f q id := by
  refine branch_induction (B := (c.Fulfils · · id)) (U := (c.Fulfils · · id))
    (fun _ => Filter.Over.child_all) (fun _ => Filter.Over.child_any)
    (fun g q hg hunions hq => ?_) (fun branches q _ hbranches hq => ?_) f hknown
  · obtain ⟨image, hplan, rfl⟩ := (made_of_branchPlan hq).fulfils hc (conjuncts_known hg) hunions
    exact hplan.congr (conjuncts_holds g)
  · exact unionPlan_fulfils hbranches hq

/-! ## Candidates -/

theorem fullScan_fulfils {f : Filter} (hknown : c.Knows f) :
    c.Fulfils f ((Plan.fullScan c.recordType.name).withResidual f) id := by
  have hscan : c.Fulfils .always (.fullScan c.recordType.name) id := ⟨.fullScan, fun _ _ => rfl⟩
  exact (hscan.withResidual_id hknown).congr fun _ _ => by simp [Filter.always]

/-- The plans by index of a filter fulfil it, and give what the caller reads. -/
theorem Made.fulfils_filter (hc : c.Ready) {f : Filter} (hknown : c.Knows f)
    {required : Option (List String)} (h : c.Made f.conjuncts required p) :
    ∃ image, c.Fulfils f p image ∧ c.recordType.Keeps required image := by
  have hconjuncts := conjuncts_known hknown
  obtain ⟨image, hplan, hkeeps⟩ :=
    h.fulfils hc hconjuncts fun g hg => (branch_fulfils hc g (hconjuncts g hg)).2
  exact ⟨image, hplan.congr (conjuncts_holds f), hkeeps⟩

/-- **Every candidate is a plan that fulfils the query's filter, under the query's limit,** and
gives what the caller reads. -/
theorem generate_fulfils (hc : c.Ready) {q : Query} (hknown : c.Knows q.filter)
    {limits : Filter.Limits} {prepared : Filter.Prepared}
    (hprepared : q.filter.prepare limits = .ok prepared) (h : p ∈ (c.generate prepared q).1) :
    ∃ base image, p = base.withLimit q.limit ∧ c.Fulfils q.filter base image ∧
      c.recordType.Keeps q.requiredFields image := by
  obtain ⟨hnormal, hexpanded⟩ := Filter.prepare_spec hprepared
  have hknownNormal : c.Knows prepared.filter := hnormal ▸ Filter.normalize_over hknown
  have hmeans : ∀ value rankOf, prepared.filter.holds value rankOf = q.filter.holds value rankOf :=
    fun value rankOf => by rw [hnormal, Filter.normalize_holds]
  obtain ⟨base, rfl, hmade | ⟨-, rfl⟩ | ⟨g, hg, hunion⟩⟩ := generate_cases h
  · obtain ⟨image, hplan, hkeeps⟩ := hmade.fulfils_filter hc hknownNormal
    exact ⟨base, image, rfl, hplan.congr hmeans, hkeeps⟩
  · have hplan := (fullScan_fulfils hknownNormal).congr hmeans
    exact ⟨_, id, rfl, hplan, c.recordType.keeps_id _⟩
  · have hform := hexpanded g hg
    have hplan := (branch_fulfils hc g (Filter.disjunctive_over hform
      (Filter.normalize_over hknown))).2 base hunion
    refine ⟨base, id, rfl, hplan.congr fun value rankOf => ?_, c.recordType.keeps_id _⟩
    rw [Filter.disjunctive_holds hform, Filter.normalize_holds]

end PlanningContext

end RecordLayer
