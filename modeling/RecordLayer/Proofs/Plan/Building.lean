import RecordLayer.Proofs.Plan.Execution

/-!
# Fitting plans build

An execution checks a plan on its own before it reads anything: that indexes are of its record type
and may be scanned, that there is a ranking where ranks are asked for, that fields are declared,
that look-ups take at least one value at a time, that an intersection has something to intersect.
None of this can refuse a plan that fits. Whether the orders that the plan declares can be relied on
does not matter here, since building does not ask for it.
-/

namespace RecordLayer.Plan

variable {v : StoreView} {t : RecordType} {c : ExecutionContext} {children : List Plan}

theorem buildAll_ok (h : ∀ p ∈ children, ∃ node, c.build p = .ok node) :
    ∃ nodes, c.buildAll children = .ok nodes := by
  induction children with
  | nil => exact ⟨[], rfl⟩
  | cons p rest ih =>
    obtain ⟨node, hnode⟩ := h p (by simp)
    obtain ⟨nodes, hnodes⟩ := ih fun q hq => h q (List.mem_cons_of_mem _ hq)
    exact ⟨node :: nodes, by rw [ExecutionContext.buildAll, hnode, hnodes]; rfl⟩

/-- The positions of the merge key of fitting children. -/
theorem mergePositions_ok (ho : c.Over v t) (hc : v.catalog.Sound)
    (ht : v.catalog.recordType? t.name = some t) (hfits : ∀ p ∈ children, Fits v.catalog t p id)
    {key : List String}
    (hkey : RowOrder.sharedMergeKey (orders t children) t.primaryKey = some key) :
    ∃ positions, key.mapM c.position = .ok positions :=
  ExecutionContext.positions_ok ho
    (hasField_of_sharedMergeKey hkey fun p hp => (hfits p hp).order_known hc ht)

theorem build_union (ho : c.Over v t) (hc : v.catalog.Sound)
    (ht : v.catalog.recordType? t.name = some t) {merge : Option (List String)}
    (hfits : ∀ p ∈ children, Fits v.catalog t p id)
    (hmerge : ∀ key, merge = some key →
      RowOrder.sharedMergeKey (orders t children) t.primaryKey = some key)
    (hbuilds : ∀ p ∈ children, ∃ node, c.build p = .ok node) :
    ∃ node, c.build (.union children (some t.primaryKey) merge) = .ok node := by
  obtain ⟨nodes, hnodes⟩ := buildAll_ok hbuilds
  obtain ⟨i, hi⟩ := ExecutionContext.position_ok ho t.hasField_primaryKey
  rw [ExecutionContext.build, hnodes]
  cases merge with
  | none => exact ⟨_, buildUnion_chain hi⟩
  | some key =>
    have hkey := hmerge key rfl
    obtain ⟨positions, hpositions⟩ := mergePositions_ok ho hc ht hfits hkey
    exact ⟨_, buildUnion_merge hi hpositions (RowOrder.sharedMergeKey_spec hkey).1⟩

theorem build_intersection (ho : c.Over v t) (hc : v.catalog.Sound)
    (ht : v.catalog.recordType? t.name = some t) {merge : Option (List String)}
    (hne : children ≠ [])
    (hfits : ∀ p ∈ children, Fits v.catalog t p id)
    (hmerge : ∀ key, merge = some key →
      RowOrder.sharedMergeKey (orders t children) t.primaryKey = some key)
    (hbuilds : ∀ p ∈ children, ∃ node, c.build p = .ok node) :
    ∃ node, c.build (.intersection children merge) = .ok node := by
  cases merge with
  | some key =>
    obtain ⟨nodes, hnodes⟩ := buildAll_ok hbuilds
    obtain ⟨positions, hpositions⟩ := mergePositions_ok ho hc ht hfits (hmerge key rfl)
    rw [ExecutionContext.build, hnodes, hpositions, if_neg (by simpa using hne)]
    exact ⟨_, rfl⟩
  | none =>
    -- only the first child is built, the others are tested by their matching filters
    obtain ⟨first, rest, rfl⟩ := List.exists_cons_of_ne_nil hne
    obtain ⟨node, hnode⟩ := hbuilds first (by simp)
    obtain ⟨tests, htests⟩ := ExecutionContext.compileAll_ok ho
      (show ∀ f ∈ matchingFilters rest, f.Known v.catalog t from fun f hf => by
        rw [matchingFilters_eq] at hf
        obtain ⟨p, hp, rfl⟩ := List.mem_map.1 hf
        exact (hfits p (List.mem_cons_of_mem _ hp)).matching_known hc ht)
    rw [ExecutionContext.build, ExecutionContext.buildProbe, hnode, htests]
    exact ⟨_, rfl⟩

/-- **A fitting plan builds.** -/
theorem Fits.builds (ho : c.Over v t) (hc : v.catalog.Sound)
    (ht : v.catalog.recordType? t.name = some t) {p : Plan} {image : Record → Record}
    (hp : Fits v.catalog t p image) : ∃ node, c.build p = .ok node := by
  induction hp with
  | fullScan => exact ⟨_, by rw [← ho.recordType, c.build_fullScan]⟩
  | indexScan hindex hrank => exact ⟨_, build_indexScan ho hindex hrank⟩
  | union hfits hmerge ih => exact build_union ho hc ht hfits hmerge ih
  | intersection hne hfits hmerge ih => exact build_intersection ho hc ht hne hfits hmerge ih
  | inJoin hindex hlead _ hbatch => exact ⟨_, build_inJoin ho _ hindex hlead hbatch⟩
  | filter _ hknown _ ih =>
    obtain ⟨node, hnode⟩ := ih
    obtain ⟨test, htest⟩ := ExecutionContext.compile_ok ho hknown
    rw [ExecutionContext.build, hnode, htest]
    exact ⟨_, rfl⟩

/-- A limit is no reason to refuse a plan. -/
theorem build_withLimit {p : Plan} (h : ∃ node, c.build p = .ok node) (limit : Option Nat) :
    ∃ node, c.build (p.withLimit limit) = .ok node := by
  cases limit with
  | none => exact h
  | some n =>
    obtain ⟨node, hnode⟩ := h
    rw [withLimit, ExecutionContext.build, hnode]
    exact ⟨_, rfl⟩

end RecordLayer.Plan
