import RecordLayer.Proofs.Filter.Evaluation
import RecordLayer.Proofs.Index
import RecordLayer.Proofs.Cursor.Windows

/-!
# Plans that fit a catalog

`Plan.Fits` says what every plan keeps that planning makes for a record type: scans are of indexes
that plans may scan, their bounds are exact for the conditions that they match, unions leave out
repetitions of the primary key, merge keys are shared by the orders of the children, and filters
speak of known fields. It also says what a plan makes of a record: a covering scan gives what the
index stores, and only the filters above it may read that.

What a plan declares about its order is another matter. `Plan.Ordered` holds of the plans whose
declared order comes from settled indexes only, `Plan.WellMerged` of those in which every merging
node stands above such plans.
-/

namespace RecordLayer

/-- The filter tests declared fields, and ranks of fields with a rank index. -/
def Filter.Known (c : Catalog) (t : RecordType) (f : Filter) : Prop :=
  f.Over (fun field => t.hasField field = true)
    fun field => (c.rankIndex? t.name field).isSome = true

namespace IndexScan

/-- Whether the bounds of a scan admit a record with the given values and ranks. -/
def admits (scan : IndexScan) (value : String → Value) (rankOf : String → Value → UInt64) : Bool :=
  match scan.bounds with
  | .keys range => range.contains (scan.index.keyFields.map value)
  | .ranks start stop =>
    scan.index.keyFields.all fun field => inWindow start stop (rankOf field (value field))

/-- Whether the scan finds a row, given all rows. Places of a ranking are counted
without a bound. -/
def finds (scan : IndexScan) (t : RecordType) (rows : List Record) (r : Record) : Bool :=
  match scan.bounds with
  | .keys range => range.contains (scan.index.keyOf t r)
  | .ranks start stop =>
    scan.index.keyFields.all fun field =>
      countInWindow start stop (countBelow t rows field (t.valueOf r field))

/-- What is found is what the bounds admit, as long as no rank is cut. -/
theorem finds_eq_admits (scan : IndexScan) {t : RecordType} {rows : List Record}
    (hcount : rows.length < UInt64.size) (r : Record) :
    scan.finds t rows r = scan.admits (t.valueOf r) (rankAmong t rows) := by
  unfold finds admits
  cases scan.bounds with
  | keys range => rfl
  | ranks start stop =>
    simp only [inWindow_eq, CursorNode.rankAmong_toNat hcount]

/-- The bounds admit just the records that satisfy the matched conditions. -/
def Exact (scan : IndexScan) : Prop :=
  ∀ (value : String → Value) (rankOf : String → Value → UInt64),
    (∀ field, rankOf field (value field) ≠ maxRank) →
    scan.admits value rankOf = scan.matched.all (·.holds value rankOf)

end IndexScan

namespace Plan

open CursorNode

/-! ## Fitting plans -/

/-- The plan fits a record type of a catalog; the function is what it makes of a record. -/
inductive Fits (c : Catalog) (t : RecordType) : Plan → (Record → Record) → Prop
  | fullScan : Fits c t (.fullScan t.name) id
  | indexScan {scan : IndexScan} (hindex : scan.index ∈ c.plannableIndexes t.name)
    (hrank : scan.bounds.isRanks = true → scan.index.isRank = true) (hexact : scan.Exact)
    (hknown : ∀ f ∈ scan.matched, f.Known c t) :
    Fits c t (.indexScan scan) (imageOf t scan.index scan.covering)
  | union {children : List Plan} {merge : Option (List String)}
    (hchildren : ∀ p ∈ children, Fits c t p id)
    (hmerge : ∀ key, merge = some key →
      RowOrder.sharedMergeKey (orders t children) t.primaryKey = some key) :
    Fits c t (.union children (some t.primaryKey) merge) id
  | intersection {children : List Plan} {merge : Option (List String)} (hne : children ≠ [])
    (hchildren : ∀ p ∈ children, Fits c t p id)
    (hmerge : ∀ key, merge = some key →
      RowOrder.sharedMergeKey (orders t children) t.primaryKey = some key) :
    Fits c t (.intersection children merge) id
  | inJoin {field : String} {values : List Value} {index : Index} {batchSize : Nat}
    (hindex : index ∈ c.plannableIndexes t.name) (hlead : index.leadingField? = some field)
    (hvalues : values.Pairwise fun a b => a.compare b = .lt) (hbatch : batchSize ≠ 0) :
    Fits c t (.inJoin field values index batchSize) id
  | filter {child : Plan} {residual : Filter} {image : Record → Record}
    (hchild : Fits c t child image) (hknown : residual.Known c t)
    (hread : residual.Over (fun field => ∀ r, t.validate r = .ok () →
      t.valueOf (image r) field = t.valueOf r field) fun _ => True) :
    Fits c t (.filter child residual) image

/-! ## Orders that hold -/

/-- The order that the plan declares comes from indexes that are settled behind what is bound. -/
inductive Ordered (c : Catalog) (t : RecordType) : Plan → Prop
  | fullScan (recordType : String) : Ordered c t (.fullScan recordType)
  | indexScan {scan : IndexScan} (h : scan.index.SettledBehind c t scan.bounds.equalCount) :
    Ordered c t (.indexScan scan)
  | inJoin (field : String) (values : List Value) {index : Index} (batchSize : Nat)
    (h : index.Settled c t) : Ordered c t (.inJoin field values index batchSize)
  | union (children : List Plan) (dedup : Option String) (merge : Option (List String)) :
    Ordered c t (.union children dedup merge)
  | join (children : List Plan) (key : List String) :
      Ordered c t (.intersection children (some key))
  | probe {first : Plan} (rest : List Plan) (h : Ordered c t first) :
    Ordered c t (.intersection (first :: rest) none)
  | filter {child : Plan} (residual : Filter) (h : Ordered c t child) :
    Ordered c t (.filter child residual)
  | limit {child : Plan} (count : Nat) (h : Ordered c t child) : Ordered c t (.limit child count)

/-- Every merging node stands above plans that come in the order that they declare. -/
inductive WellMerged (c : Catalog) (t : RecordType) : Plan → Prop
  | fullScan (recordType : String) : WellMerged c t (.fullScan recordType)
  | indexScan (scan : IndexScan) : WellMerged c t (.indexScan scan)
  | inJoin (field : String) (values : List Value) (index : Index) (batchSize : Nat) :
    WellMerged c t (.inJoin field values index batchSize)
  | union {children : List Plan} (dedup : Option String) {merge : Option (List String)}
    (h : ∀ p ∈ children, WellMerged c t p) (hmerge : merge ≠ none → ∀ p ∈ children, Ordered c t p) :
    WellMerged c t (.union children dedup merge)
  | intersection {children : List Plan} {merge : Option (List String)}
    (h : ∀ p ∈ children, WellMerged c t p) (hmerge : merge ≠ none → ∀ p ∈ children, Ordered c t p) :
    WellMerged c t (.intersection children merge)
  | filter {child : Plan} (residual : Filter) (h : WellMerged c t child) :
    WellMerged c t (.filter child residual)
  | limit {child : Plan} (count : Nat) (h : WellMerged c t child) :
    WellMerged c t (.limit child count)

variable {c : Catalog} {t : RecordType} {p : Plan} {image : Record → Record}

theorem Fits.ordered (h : Fits c t p image)
    (hsettled : ∀ i ∈ c.plannableIndexes t.name, i.Settled c t) : p.Ordered c t := by
  induction h with
  | fullScan => exact .fullScan _
  | indexScan hindex => exact .indexScan (.inr (hsettled _ hindex))
  | union => exact .union ..
  | @intersection children merge hne _ _ ih =>
    cases merge with
    | some key => exact .join ..
    | none =>
      obtain ⟨first, rest, rfl⟩ := List.exists_cons_of_ne_nil hne
      exact .probe rest (ih first (by simp))
  | inJoin hindex => exact .inJoin _ _ _ (hsettled _ hindex)
  | filter _ _ _ ih => exact .filter _ ih

/-- **Over settled indexes every fitting plan is well merged.** -/
theorem Fits.wellMerged (h : Fits c t p image)
    (hsettled : ∀ i ∈ c.plannableIndexes t.name, i.Settled c t) : p.WellMerged c t := by
  induction h with
  | fullScan => exact .fullScan _
  | indexScan => exact .indexScan _
  | union hchildren _ ih => exact .union _ ih fun _ p hp => (hchildren p hp).ordered hsettled
  | intersection _ hchildren _ ih =>
    exact .intersection ih fun _ p hp => (hchildren p hp).ordered hsettled
  | inJoin => exact .inJoin ..
  | filter _ _ _ ih => exact .filter _ ih

/-! ## Matching filters -/

theorem matchingFilters_eq (plans : List Plan) :
    matchingFilters plans = plans.map matchingFilter := by
  induction plans with
  | nil => rfl
  | cons p rest ih => rw [matchingFilters, ih, List.map_cons]

theorem matchingFilter_indexScan_holds (scan : IndexScan) (value : String → Value)
    (rankOf : String → Value → UInt64) :
    (matchingFilter (.indexScan scan)).holds value rankOf =
      scan.matched.all (·.holds value rankOf) := by
  rw [matchingFilter]
  split
  · rename_i f h
    rw [h, List.all_cons, List.all_nil, Bool.and_true]
  · rw [Filter.holds_all]

theorem matchingFilter_filter_holds (child : Plan) (residual : Filter) (value : String → Value)
    (rankOf : String → Value → UInt64) :
    (matchingFilter (.filter child residual)).holds value rankOf =
      (child.matchingFilter.holds value rankOf && residual.holds value rankOf) := by
  rw [matchingFilter]
  split
  · rename_i h
    unfold Filter.isAlways at h
    split at h
    · rename_i heq
      rw [heq, Filter.holds_all, List.all_nil, Bool.true_and]
    · cases h
  · simp

/-- The matching filter of a fitting plan speaks of known fields. -/
theorem Fits.matching_known (hc : c.Sound) (ht : c.recordType? t.name = some t)
    (h : Fits c t p image) : p.matchingFilter.Known c t := by
  have hchildren : ∀ {children : List Plan},
      (∀ p ∈ children, p.matchingFilter.Known c t) →
      ∀ f ∈ matchingFilters children, f.Known c t := by
    intro children ih f hf
    rw [matchingFilters_eq] at hf
    obtain ⟨p, hp, rfl⟩ := List.mem_map.1 hf
    exact ih p hp
  induction h with
  | fullScan => exact .all (by simp)
  | @indexScan scan _ _ _ hknown =>
    rw [matchingFilter]
    split
    · rename_i f heq
      exact hknown f (by rw [heq]; simp)
    · exact .all hknown
  | union _ _ ih => exact .any (hchildren ih)
  | intersection _ _ _ ih => exact .all (hchildren ih)
  | inJoin hindex hlead =>
    have hfits := hc.fits ht (Catalog.mem_plannableIndexes.1 hindex).1
    refine .oneOf (hfits.field _ (List.mem_append_left _ ?_))
    exact List.mem_of_mem_head? hlead
  | filter _ hknown _ ih =>
    rw [matchingFilter]
    split
    · exact hknown
    · exact .all fun f hf => by
        rcases List.mem_cons.1 hf with rfl | hf
        · exact ih
        · rw [List.mem_singleton.1 hf]
          exact hknown

/-! ## Declared orders -/

theorem headOrder_eq (plans : List Plan) :
    headOrder? t plans = plans.head?.bind (·.order? t) := by
  cases plans <;> rfl

theorem mem_endingIn {f primaryKey : String} {fields : List String}
    (h : f ∈ RowOrder.endingIn primaryKey fields) : f ∈ fields ∨ f = primaryKey := by
  unfold RowOrder.endingIn at h
  split at h
  · exact .inl h
  · rcases List.mem_append.1 h with h | h
    · exact .inl (List.mem_filter.1 h).1
    · exact .inr (List.mem_singleton.1 h)

/-- The fields of an index and the primary key are declared. -/
theorem hasField_of_endingIn (hc : c.Sound) (ht : c.recordType? t.name = some t) {i : Index}
    (hi : i ∈ c.plannableIndexes t.name) {f : String} {fields : List String}
    (hfields : ∀ f ∈ fields, f ∈ i.keyFields) (hf : f ∈ RowOrder.endingIn t.primaryKey fields) :
    t.hasField f = true := by
  have hfits := hc.fits ht (Catalog.mem_plannableIndexes.1 hi).1
  rcases mem_endingIn hf with hf | rfl
  · exact hfits.field f (List.mem_append_left _ (hfields f hf))
  · exact t.hasField_primaryKey

/-- A shared merge key is over declared fields, if the orders are. -/
theorem hasField_of_sharedMergeKey {children : List Plan} {key : List String}
    (hkey : RowOrder.sharedMergeKey (orders t children) t.primaryKey = some key)
    (h : ∀ p ∈ children, ∀ o, p.order? t = some o → ∀ f ∈ o.fields, t.hasField f = true) :
    ∀ f ∈ key, t.hasField f = true := by
  intro f hf
  rcases RowOrder.sharedMergeKey_source hkey with rfl | ⟨o, ho, rfl⟩
  · rw [List.mem_singleton.1 hf]
    exact t.hasField_primaryKey
  · obtain ⟨p, hp, hpo⟩ := List.mem_map.1 ho
    exact h p hp o hpo f hf

/-- A fitting plan declares an order over declared fields. -/
theorem Fits.order_known (hc : c.Sound) (ht : c.recordType? t.name = some t)
    (h : Fits c t p image) : ∀ o, p.order? t = some o → ∀ f ∈ o.fields, t.hasField f = true := by
  induction h with
  | fullScan =>
    rintro o ho f hf
    obtain rfl := Option.some.inj ho
    rw [List.mem_singleton.1 hf]
    exact t.hasField_primaryKey
  | indexScan hindex =>
    rintro o ho f hf
    obtain rfl := Option.some.inj ho
    exact hasField_of_endingIn hc ht hindex (fun f => List.mem_of_mem_drop) hf
  | @union children merge _ hmerge ih =>
    rintro o ho f hf
    obtain ⟨key, hkey, rfl⟩ := Option.map_eq_some_iff.1 ho
    exact hasField_of_sharedMergeKey (hmerge key hkey) ih f hf
  | @intersection children merge _ _ hmerge ih =>
    rintro o ho f hf
    -- a merge comes out in the order of its key, a probe in the order of its first child
    cases merge with
    | some key =>
      obtain rfl := Option.some.inj ho
      exact hasField_of_sharedMergeKey (hmerge key rfl) ih f hf
    | none =>
      rw [order?, headOrder_eq] at ho
      obtain ⟨p, hp, hpo⟩ := Option.bind_eq_some_iff.1 ho
      exact ih p (List.mem_of_mem_head? hp) o hpo f hf
  | inJoin hindex =>
    rintro o ho f hf
    obtain rfl := Option.some.inj ho
    exact hasField_of_endingIn hc ht hindex (fun f hf => hf) hf
  | filter _ _ _ ih => exact ih

end Plan

end RecordLayer
