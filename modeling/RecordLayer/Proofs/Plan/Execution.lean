import RecordLayer.Proofs.Cursor.Answers
import RecordLayer.Proofs.Filter.Normal
import RecordLayer.Proofs.Plan.Fitting

/-!
# Fitting plans run

**A fitting plan that is well merged builds, drains without an error, and gives the rows for which
its matching filter holds, each once;** and if its declared order comes from settled indexes, its
records are in that order.

The proof is an induction on how the plan fits. At a merging node the orders of the children are
needed to know that they ascend on the merge key: each child is in its declared order, which
satisfies the key, and the key ends in the primary key, which tells rows apart.
-/

namespace RecordLayer

open Reading CursorNode

variable {v : StoreView} {t : RecordType} {rows : List Record} {c : ExecutionContext}

/-- The execution is over the catalog of a view and a record type of it. -/
structure ExecutionContext.Over (c : ExecutionContext) (v : StoreView) (t : RecordType) : Prop where
  catalog : c.catalog = v.catalog
  recordType : c.recordType = t

namespace ExecutionContext

/-- A context that was created for a registered type is over it. -/
theorem over_of_create {catalog : Catalog} (hcatalog : v.catalog = catalog)
    (ht : catalog.recordType? t.name = some t) {consistency : Consistency} {requestId : String}
    (hcreate : create catalog t.name consistency requestId = .ok c) : c.Over v t := by
  rw [create, ht] at hcreate
  obtain rfl := Except.ok.inj hcreate
  exact ⟨hcatalog.symm, rfl⟩

/-! ## Filters and keys -/

/-- A filter that was compiled accepts what it means. -/
theorem accepts_of_compile (ho : c.Over v t) (h : v.Serves t rows) (hc : v.catalog.Sound)
    {f : Filter} {test : CompiledFilter} (htest : c.compile f = .ok test) (r : Record) :
    (test.accepts v r).Gives (f.holds (t.valueOf r) (rankAmong t rows)) := by
  unfold compile at htest
  rw [ho.recordType, ho.catalog] at htest
  split at htest
  · rename_i test' hcompile
    obtain ⟨node, hnode, hroot⟩ := exists_of_bind_eq_ok hcompile
    cases htest
    cases hroot
    exact CompiledNode.eval_gives (h.ranks hc) r hnode
  · cases htest

theorem allAccept_of_compile (ho : c.Over v t) (h : v.Serves t rows) (hc : v.catalog.Sound)
    {f : Filter} {test : CompiledFilter} (htest : c.compile f = .ok test) (r : Record) :
    (CompiledFilter.allAccept v r [test]).Gives (f.holds (t.valueOf r) (rankAmong t rows)) := by
  refine gives_bind (accepts_of_compile ho h hc htest r) ?_
  cases f.holds (t.valueOf r) (rankAmong t rows) <;> exact gives_pure _

theorem allAccept_of_compileAll (ho : c.Over v t) (h : v.Serves t rows) (hc : v.catalog.Sound)
    {fs : List Filter} {tests : List CompiledFilter} (htests : c.compileAll fs = .ok tests)
    (r : Record) : (CompiledFilter.allAccept v r tests).Gives
      ((Filter.all fs).holds (t.valueOf r) (rankAmong t rows)) := by
  induction fs generalizing tests with
  | nil =>
    cases htests
    rw [Filter.holds_all]
    exact gives_pure _
  | cons f rest ih =>
    obtain ⟨test, htest, hrest⟩ := exists_of_bind_eq_ok htests
    obtain ⟨others, hothers, hok⟩ := exists_of_bind_eq_ok hrest
    cases hok
    have hall := ih hothers
    rw [Filter.holds_all] at hall
    rw [CompiledFilter.allAccept, Filter.holds_all, List.all_cons]
    refine gives_bind (accepts_of_compile ho h hc htest r) ?_
    cases f.holds (t.valueOf r) (rankAmong t rows) with
    | true => exact hall
    | false => exact gives_pure _

/-- A filter over known fields compiles. -/
theorem compile_ok (ho : c.Over v t) {f : Filter} (hf : f.Known v.catalog t) :
    ∃ test, c.compile f = .ok test := by
  obtain ⟨node, hnode⟩ := CompiledNode.exists_ofFilter hf
  refine ⟨⟨node, f⟩, ?_⟩
  rw [compile, CompiledFilter.compile, ho.catalog, ho.recordType, hnode]
  rfl

theorem compileAll_ok (ho : c.Over v t) {fs : List Filter}
    (hfs : ∀ f ∈ fs, f.Known v.catalog t) : ∃ tests, c.compileAll fs = .ok tests := by
  induction fs with
  | nil => exact ⟨[], rfl⟩
  | cons f rest ih =>
    obtain ⟨test, htest⟩ := compile_ok ho (hfs f (by simp))
    obtain ⟨tests, htests⟩ := ih fun g hg => hfs g (List.mem_cons_of_mem _ hg)
    exact ⟨test :: tests, by rw [compileAll, htest, htests]; rfl⟩

/-- The value of a field stands at the position that was found for it. -/
theorem valueOf_of_position (ho : c.Over v t) {field : String} {i : Nat}
    (hi : c.position field = .ok i) (r : Record) : t.valueOf r field = r.get i := by
  unfold position at hi
  rw [ho.recordType] at hi
  split at hi
  · rename_i j hj
    cases hi
    exact RecordType.valueOf_of_position hj r
  · cases hi

/-- The values of a key stand at the positions that were found for it. -/
theorem keyAt_of_mapM (ho : c.Over v t) {key : List String} {positions : List Nat}
    (h : key.mapM c.position = .ok positions) (r : Record) :
    r.keyAt positions = key.map (t.valueOf r) := by
  induction key generalizing positions with
  | nil =>
    cases h
    rfl
  | cons f rest ih =>
    rw [List.mapM_cons] at h
    obtain ⟨i, hi, htail⟩ := exists_of_bind_eq_ok h
    obtain ⟨tail, hrest, hok⟩ := exists_of_bind_eq_ok htail
    cases hok
    rw [List.map_cons, valueOf_of_position ho hi, ← ih hrest]
    rfl

theorem position_ok (ho : c.Over v t) {field : String} (h : t.hasField field = true) :
    ∃ i, c.position field = .ok i := by
  obtain ⟨i, hi, -⟩ := RecordType.exists_position h
  exact ⟨i, by rw [position, ho.recordType, hi]⟩

theorem positions_ok (ho : c.Over v t) {key : List String}
    (h : ∀ f ∈ key, t.hasField f = true) : ∃ positions, key.mapM c.position = .ok positions := by
  induction key with
  | nil => exact ⟨[], rfl⟩
  | cons f rest ih =>
    obtain ⟨i, hi⟩ := position_ok ho (h f (by simp))
    obtain ⟨positions, hpositions⟩ := ih fun g hg => h g (List.mem_cons_of_mem _ hg)
    exact ⟨i :: positions, by rw [List.mapM_cons, hi, hpositions]; rfl⟩

theorem checkIndex_ok (ho : c.Over v t) {i : Index}
    (hi : i ∈ v.catalog.plannableIndexes t.name) : c.checkIndex i = .ok () := by
  obtain ⟨hof, hplannable⟩ := Catalog.mem_plannableIndexes.1 hi
  rw [checkIndex, ho.recordType, Catalog.recordType_of_mem_indexesOf hof, hplannable]
  simp

end ExecutionContext

namespace Plan

/-! ## Running plans -/

/-- The plan builds and answers its matching filter, in its declared order if that
can be relied on. -/
def Runs (v : StoreView) (t : RecordType) (rows : List Record) (c : ExecutionContext) (p : Plan)
    (image : Record → Record) : Prop :=
  ∃ node out, c.build p = .ok node ∧ Answers v t rows image node p.matchingFilter out ∧
    (p.Ordered v.catalog t → ∀ o, p.order? t = some o → o.Sorts t (out.map image))

theorem answers_congr {node : CursorNode} {image : Record → Record} {f g : Filter}
    {out : List Record} (h : Answers v t rows image node f out)
    (heq : ∀ r,
      f.holds (t.valueOf r) (rankAmong t rows) = g.holds (t.valueOf r) (rankAmong t rows)) :
    Answers v t rows image node g out :=
  ⟨h.drains, h.nodup, fun r => by rw [h.mem, heq]⟩

/-- A filter on a plan answers the matching filter of both. -/
theorem answers_residual (ho : c.Over v t) (h : v.Serves t rows) (hc : v.catalog.Sound)
    {child : Plan} {residual : Filter} {node : CursorNode} {image : Record → Record}
    {out : List Record} (hanswers : Answers v t rows image node child.matchingFilter out)
    {test : CompiledFilter} (htest : c.compile residual = .ok test)
    (himage : ∀ r ∈ out, residual.holds (t.valueOf (image r)) (rankAmong t rows) =
      residual.holds (t.valueOf r) (rankAmong t rows)) :
    Answers v t rows image (.filter node [test]) (matchingFilter (.filter child residual))
      (out.filter fun r => residual.holds (t.valueOf r) (rankAmong t rows)) := by
  have htests := ExecutionContext.allAccept_of_compile ho h hc htest
  refine answers_congr (hanswers.filter htests himage) fun r => ?_
  rw [matchingFilter_filter_holds]
  simp

/-- The first plan under the matching filters of the others answers the conjunction of them all. -/
theorem answers_probe (ho : c.Over v t) (h : v.Serves t rows) (hc : v.catalog.Sound)
    {first : Plan} {rest : List Plan} {node : CursorNode} {out : List Record}
    (hanswers : Answers v t rows id node first.matchingFilter out) {tests : List CompiledFilter}
    (htests : c.compileAll (matchingFilters rest) = .ok tests) :
    Answers v t rows id (.filter node tests) (matchingFilter (.intersection (first :: rest) none))
      (out.filter fun r =>
        (Filter.all (matchingFilters rest)).holds (t.valueOf r) (rankAmong t rows)) := by
  have haccepts := ExecutionContext.allAccept_of_compileAll ho h hc htests
  refine answers_congr (hanswers.filter haccepts fun _ _ => rfl) fun r => ?_
  rw [matchingFilter, matchingFilters]
  simp

/-- The children of a node, built and answering their matching filters. -/
theorem runs_list {children : List Plan} (h : ∀ p ∈ children, Runs v t rows c p id) :
    ∃ parts : List Part, c.buildAll children = .ok (parts.map (·.1)) ∧
      parts.map (·.2.1) = matchingFilters children ∧
      ∀ part ∈ parts, Answers v t rows id part.1 part.2.1 part.2.2 ∧ ∃ p ∈ children,
        p.Ordered v.catalog t → ∀ o, p.order? t = some o → o.Sorts t part.2.2 := by
  induction children with
  | nil => exact ⟨[], rfl, rfl, by simp⟩
  | cons p rest ih =>
    obtain ⟨node, out, hbuild, hanswers, hsorts⟩ := h p (by simp)
    obtain ⟨parts, hbuilds, hfilters, hparts⟩ := ih fun q hq => h q (List.mem_cons_of_mem _ hq)
    refine ⟨(node, p.matchingFilter, out) :: parts, ?_, ?_, fun part hpart => ?_⟩
    · rw [ExecutionContext.buildAll, hbuild, hbuilds]
      rfl
    · rw [matchingFilters, List.map_cons, hfilters]
    · rcases List.mem_cons.1 hpart with rfl | hpart
      · refine ⟨hanswers, p, by simp, fun ho o hpo => ?_⟩
        simpa using hsorts ho o hpo
      · obtain ⟨hpart, q, hq, hqo⟩ := hparts part hpart
        exact ⟨hpart, q, List.mem_cons_of_mem _ hq, hqo⟩

/-- A key over declared fields that ends in the primary key. -/
structure KeyPositions (v : StoreView) (t : RecordType) (rows : List Record) (key : List String)
    (positions : List Nat) : Prop where
  keyAt : ∀ r : Record, r.keyAt positions = key.map (t.valueOf r)
  last : key.getLast? = some t.primaryKey

namespace KeyPositions

variable {key : List String} {positions : List Nat}

/-- The key tells rows apart. -/
theorem inj (hp : KeyPositions v t rows key positions) (h : v.Serves t rows) :
    ∀ r ∈ rows, ∀ s ∈ rows, r.keyAt positions = s.keyAt positions → r = s := by
  intro r hr s hs heq
  rw [hp.keyAt, hp.keyAt, List.map_inj_left] at heq
  have hkey := heq _ (List.mem_of_getLast? hp.last)
  rw [RecordType.valueOf_primaryKey, RecordType.valueOf_primaryKey] at hkey
  exact h.eq_of_keyOf hr hs hkey

/-- Records in an order that satisfies the key strictly ascend on it. -/
theorem ascends (hp : KeyPositions v t rows key positions) (h : v.Serves t rows)
    {out : List Record} (hrows : ∀ r ∈ out, r ∈ rows) (hnodup : out.Nodup) {o : RowOrder}
    (ho : o.Sorts t out) (hkey : o.satisfies key = true) : Ascends positions out := by
  have hne : out.Pairwise fun a b => t.valueOf a t.primaryKey ≠ t.valueOf b t.primaryKey := by
    refine List.Pairwise.imp_of_mem (fun {a b} ha hb hab heq => hab ?_) hnodup
    rw [RecordType.valueOf_primaryKey, RecordType.valueOf_primaryKey] at heq
    exact h.eq_of_keyOf (hrows a ha) (hrows b hb) heq
  refine (RowOrder.strict_of_sorted hp.last hne (ho.of_satisfies hkey)).imp fun hab => ?_
  rw [hp.keyAt, hp.keyAt]
  exact hab

/-- Records that ascend on the key are in the order of the key. -/
theorem sorts (hp : KeyPositions v t rows key positions) {out : List Record}
    (h : Ascends positions out) : RowOrder.Sorts t ⟨key, []⟩ out where
  sorted := h.imp fun hab => by
    rw [hp.keyAt, hp.keyAt] at hab
    rw [RecordType.compareBy, hab]
    simp
  constant := by simp

end KeyPositions

/-- The position of the primary key tells rows apart. -/
theorem exists_keyPosition (ho : c.Over v t) (h : v.Serves t rows) :
    ∃ i, c.position t.primaryKey = .ok i ∧
      ∀ r ∈ rows, ∀ s ∈ rows, r.get i = s.get i → r = s := by
  obtain ⟨i, hi⟩ := ExecutionContext.position_ok ho t.hasField_primaryKey
  refine ⟨i, hi, fun r hr s hs heq => h.eq_of_keyOf hr hs ?_⟩
  have hget := ExecutionContext.valueOf_of_position ho hi
  rwa [← hget, ← hget, RecordType.valueOf_primaryKey, RecordType.valueOf_primaryKey] at heq

/-- The node of a union without a merge key. -/
theorem buildUnion_chain {nodes : List CursorNode} {primaryKey : String} {i : Nat}
    (hi : c.position primaryKey = .ok i) : c.buildUnion nodes (some primaryKey) none =
      .ok (.chain nodes (some { position := i, adjacent := false })) := by
  rw [ExecutionContext.buildUnion, Option.mapM_some, hi]
  rfl

/-- The node of a union whose merge key ends in the field by which repetitions are left out. -/
theorem buildUnion_merge {nodes : List CursorNode} {primaryKey : String} {i : Nat}
    (hi : c.position primaryKey = .ok i) {key : List String} {positions : List Nat}
    (hpositions : key.mapM c.position = .ok positions) (hlast : key.getLast? = some primaryKey) :
    c.buildUnion nodes (some primaryKey) (some key) =
      .ok (.merge nodes positions (some { position := i, adjacent := true }) []
        (List.range nodes.length) none) := by
  have hadjacent : decide (key.getLast? = some primaryKey) = true := decide_eq_true hlast
  rw [ExecutionContext.buildUnion, Option.mapM_some, hi]
  show (do
    let positions ← key.mapM c.position
    pure (CursorNode.merge nodes positions
      (some { position := i, adjacent := decide (key.getLast? = some primaryKey) }) []
      (List.range nodes.length) none)) = _
  rw [hpositions, hadjacent]
  rfl

section Merging

variable {children : List Plan} {key : List String}

/-- The merge key of fitting children, with the children that ascend on it. -/
theorem runs_mergeKey (ho : c.Over v t) (h : v.Serves t rows) (hc : v.catalog.Sound)
    (hfits : ∀ p ∈ children, Fits v.catalog t p id)
    (hkey : RowOrder.sharedMergeKey (orders t children) t.primaryKey = some key)
    (hordered : ∀ p ∈ children, p.Ordered v.catalog t) :
    ∃ positions, key.mapM c.position = .ok positions ∧ KeyPositions v t rows key positions ∧
      ∀ part : Part, Answers v t rows id part.1 part.2.1 part.2.2 →
        (∃ p ∈ children, p.Ordered v.catalog t →
          ∀ o, p.order? t = some o → o.Sorts t part.2.2) → Ascends positions part.2.2 := by
  obtain ⟨hlast, hsatisfies⟩ := RowOrder.sharedMergeKey_spec hkey
  obtain ⟨positions, hpositions⟩ := ExecutionContext.positions_ok ho
    (hasField_of_sharedMergeKey hkey fun p hp => (hfits p hp).order_known hc h.recordType)
  have hkp : KeyPositions v t rows key positions :=
    ⟨ExecutionContext.keyAt_of_mapM ho hpositions, hlast⟩
  refine ⟨positions, hpositions, hkp, fun part hpart ⟨p, hp, hsorts⟩ => ?_⟩
  obtain ⟨o, hpo, hok⟩ := hsatisfies (p.order? t) (List.mem_map.2 ⟨p, hp, rfl⟩)
  exact hkp.ascends h (fun r hr => ((hpart.mem r).1 hr).1) hpart.nodup
    (hsorts (hordered p hp) o hpo) hok

theorem runs_union (ho : c.Over v t) (h : v.Serves t rows) (hc : v.catalog.Sound)
    {merge : Option (List String)} (hfits : ∀ p ∈ children, Fits v.catalog t p id)
    (hmerge : ∀ key, merge = some key →
      RowOrder.sharedMergeKey (orders t children) t.primaryKey = some key)
    (hordered : merge ≠ none → ∀ p ∈ children, p.Ordered v.catalog t)
    (hruns : ∀ p ∈ children, Runs v t rows c p id) :
    Runs v t rows c (.union children (some t.primaryKey) merge) id := by
  obtain ⟨parts, hbuilds, hfilters, hparts⟩ := runs_list hruns
  obtain ⟨i, hi, hinj⟩ := exists_keyPosition ho h
  have hanswers := fun part hpart => (hparts part hpart).1
  -- without a merge key the children run one after the other, and the output has no order
  cases merge with
  | none =>
    obtain ⟨out, hout⟩ := answers_chain hanswers hinj
    rw [hfilters] at hout
    refine ⟨_, out, ?_, hout, fun _ o hpo => by cases hpo⟩
    rw [ExecutionContext.build, hbuilds]
    exact buildUnion_chain hi
  | some key =>
    obtain ⟨positions, hpositions, hkp, hasc⟩ :=
      runs_mergeKey ho h hc hfits (hmerge key rfl) (hordered (by simp))
    obtain ⟨out, hout, hascends⟩ := answers_merge hanswers hinj (hkp.inj h)
      fun part hpart => hasc part (hparts part hpart).1 (hparts part hpart).2
    rw [hfilters] at hout
    refine ⟨_, out, ?_, hout, fun _ o hpo => ?_⟩
    · rw [ExecutionContext.build, hbuilds]
      exact buildUnion_merge hi hpositions hkp.last
    · obtain rfl := Option.some.inj hpo
      rw [List.map_id]
      exact hkp.sorts hascends

theorem runs_join (ho : c.Over v t) (h : v.Serves t rows) (hc : v.catalog.Sound)
    (hne : children ≠ []) (hfits : ∀ p ∈ children, Fits v.catalog t p id)
    (hkey : RowOrder.sharedMergeKey (orders t children) t.primaryKey = some key)
    (hordered : ∀ p ∈ children, p.Ordered v.catalog t)
    (hruns : ∀ p ∈ children, Runs v t rows c p id) :
    Runs v t rows c (.intersection children (some key)) id := by
  obtain ⟨parts, hbuilds, hfilters, hparts⟩ := runs_list hruns
  obtain ⟨positions, hpositions, hkp, hasc⟩ := runs_mergeKey ho h hc hfits hkey hordered
  have hne' : parts ≠ [] := by
    rintro rfl
    rw [matchingFilters_eq] at hfilters
    exact hne (by simpa using hfilters.symm)
  obtain ⟨out, hout, hascends⟩ := answers_join hne' (fun part hpart => (hparts part hpart).1)
    (hkp.inj h) fun part hpart => hasc part (hparts part hpart).1 (hparts part hpart).2
  rw [hfilters] at hout
  refine ⟨_, out, ?_, hout, fun _ o hpo => ?_⟩
  · rw [ExecutionContext.build, hbuilds, hpositions, if_neg (by simpa using hne)]
    rfl
  · obtain rfl := Option.some.inj hpo
    rw [List.map_id]
    exact hkp.sorts hascends

theorem runs_probe (ho : c.Over v t) (h : v.Serves t rows) (hc : v.catalog.Sound)
    (hne : children ≠ []) (hfits : ∀ p ∈ children, Fits v.catalog t p id)
    (hruns : ∀ p ∈ children, Runs v t rows c p id) :
    Runs v t rows c (.intersection children none) id := by
  obtain ⟨first, rest, rfl⟩ := List.exists_cons_of_ne_nil hne
  obtain ⟨node, out, hbuild, hanswers, hsorts⟩ := hruns first (by simp)
  obtain ⟨tests, htests⟩ := ExecutionContext.compileAll_ok ho
    (show ∀ f ∈ matchingFilters rest, f.Known v.catalog t from fun f hf => by
      rw [matchingFilters_eq] at hf
      obtain ⟨p, hp, rfl⟩ := List.mem_map.1 hf
      exact (hfits p (List.mem_cons_of_mem _ hp)).matching_known hc h.recordType)
  refine ⟨_, _, ?_, answers_probe ho h hc hanswers htests, fun hordered o hpo => ?_⟩
  · rw [ExecutionContext.build, ExecutionContext.buildProbe, hbuild, htests]
    rfl
  · cases hordered with
    | probe _ hfirst =>
      have hsorts := hsorts hfirst o hpo
      rw [List.map_id] at hsorts ⊢
      exact hsorts.sublist List.filter_sublist

end Merging

/-! ## Scans -/

/-- What a scan makes of a row keeps the fields of the index and the primary key. -/
theorem valueOf_imageOf {i : Index} (covering : Bool) {r : Record} (hr : t.validate r = .ok ())
    {field : String} (hfield : field ∈ i.keyFields ∨ field = t.primaryKey) :
    t.valueOf (imageOf t i covering r) field = t.valueOf r field := by
  cases covering with
  | false => rfl
  | true =>
    refine Index.valueOf_project hr ?_
    rcases hfield with hfield | rfl
    · exact .inr (by simp [Index.storesField, hfield])
    · exact .inl rfl

/-- A scan of an index that is settled behind its bounds is in the order that they leave. -/
theorem sorts_indexScan (h : v.Serves t rows) {i : Index} {bound : Nat}
    (hsettled : i.SettledBehind v.catalog t bound) {out : List Record} (hrows : ∀ r ∈ out, r ∈ rows)
    (hasc : out.Pairwise fun a b => (i.entryOf t a).compare (i.entryOf t b) = .lt)
    (hconst : ∀ a ∈ out, ∀ b ∈ out, ∀ f ∈ i.keyFields.take bound, t.valueOf a f = t.valueOf b f)
    (covering : Bool) :
    RowOrder.Sorts t ⟨RowOrder.endingIn t.primaryKey (i.keyFields.drop bound),
      i.keyFields.take bound⟩ (out.map (imageOf t i covering)) := by
  refine (hsettled.sorts h hrows hasc hconst).map fun r hr f hf => ?_
  refine valueOf_imageOf covering (h.valid r (hrows r hr)) ?_
  rcases List.mem_append.1 hf with hf | hf
  · rcases mem_endingIn hf with hf | rfl
    · exact .inl (List.mem_of_mem_drop hf)
    · exact .inr rfl
  · exact .inl (List.mem_of_mem_take hf)

/-- Keys within a range begin with what the range binds. -/
theorem take_eq_of_contains {range : KeyRange} {fields : List String} {r : Record}
    (h : range.contains (fields.map (t.valueOf r)) = true) :
    (fields.take range.equal.length).map (t.valueOf r) = range.equal := by
  obtain ⟨rest, hkey, -⟩ := KeyRange.contains_iff.1 h
  rw [List.map_take, hkey, List.take_left]

/-- Opening a scan finds its rows, in the order of the index. -/
theorem openScan_gives (h : v.Serves t rows) (hc : v.catalog.Sound) {scan : IndexScan}
    (hindex : scan.index ∈ v.catalog.plannableIndexes t.name)
    (hrank : scan.bounds.isRanks = true → scan.index.isRank = true) (consistency : Consistency) :
    Opens v scan.index scan.bounds consistency
      (((scan.index.sorted t rows).filter (scan.finds t rows)).map (scan.index.rowOf t)) := by
  obtain ⟨hof, -⟩ := Catalog.mem_plannableIndexes.1 hindex
  cases hb : scan.bounds with
  | keys range =>
    have hfinds : scan.finds t rows = fun r => range.contains (scan.index.keyOf t r) := by
      funext r
      simp only [IndexScan.finds, hb]
    rw [hfinds]
    exact openScan_keys_gives h hindex range consistency
  | ranks start stop =>
    have hisRank := hrank (by rw [hb]; rfl)
    obtain ⟨field, hfield⟩ := List.length_eq_one_iff.1 ((hc.fits h.recordType hof).rank hisRank)
    have hfinds : scan.finds t rows = fun r =>
        countInWindow start stop (countBelow t rows field (t.valueOf r field)) := by
      funext r
      simp only [IndexScan.finds, hb, hfield, List.all_cons, List.all_nil, Bool.and_true]
    rw [hfinds]
    exact openScan_ranks_gives h hindex hisRank hfield start stop consistency

/-- The node of a scan of an index that plans may scan. -/
theorem build_indexScan (ho : c.Over v t) {scan : IndexScan}
    (hindex : scan.index ∈ v.catalog.plannableIndexes t.name)
    (hrank : scan.bounds.isRanks = true → scan.index.isRank = true) :
    c.build (.indexScan scan) =
      .ok (.indexScan scan.index scan.bounds scan.covering c.consistency none) := by
  have hnot : ¬(scan.bounds.isRanks = true ∧ (!scan.index.isRank) = true) := by
    rintro ⟨hranks, hnot⟩
    rw [hrank hranks] at hnot
    cases hnot
  rw [ExecutionContext.build, ExecutionContext.buildScan, ExecutionContext.checkIndex_ok ho hindex,
    if_neg hnot]
  rfl

/-- **A scan with exact bounds answers what it matched,** with its rows in the
order of the index. -/
theorem answers_scan (h : v.Serves t rows) (hc : v.catalog.Sound)
    (hcount : rows.length < UInt64.size) {scan : IndexScan}
    (hindex : scan.index ∈ v.catalog.plannableIndexes t.name)
    (hrank : scan.bounds.isRanks = true → scan.index.isRank = true) (hexact : scan.Exact)
    (consistency : Consistency) :
    Answers v t rows (imageOf t scan.index scan.covering)
      (.indexScan scan.index scan.bounds scan.covering consistency none)
      (matchingFilter (.indexScan scan))
      ((scan.index.sorted t rows).filter (scan.finds t rows)) := by
  have hname := Catalog.recordType_of_mem_indexesOf (Catalog.mem_plannableIndexes.1 hindex).1
  refine answers_indexScan h hname scan.covering (openScan_gives h hc hindex hrank consistency) ?_
  intro r hr
  rw [scan.finds_eq_admits hcount, matchingFilter_indexScan_holds]
  exact hexact _ _ fun field => rankAmong_ne_max hcount hr field

theorem runs_indexScan (ho : c.Over v t) (h : v.Serves t rows) (hc : v.catalog.Sound)
    (hcount : rows.length < UInt64.size) {scan : IndexScan}
    (hindex : scan.index ∈ v.catalog.plannableIndexes t.name)
    (hrank : scan.bounds.isRanks = true → scan.index.isRank = true) (hexact : scan.Exact) :
    Runs v t rows c (.indexScan scan) (imageOf t scan.index scan.covering) := by
  have hanswers := answers_scan h hc hcount hindex hrank hexact c.consistency
  refine ⟨_, _, build_indexScan ho hindex hrank, hanswers, fun hordered o hpo => ?_⟩
  cases hordered with
  | indexScan hsettled =>
    obtain rfl := Option.some.inj hpo
    refine sorts_indexScan h hsettled (fun r hr => ((hanswers.mem r).1 hr).1)
      ((scan.index.sorted_ascending t h.keys_ne).filter _) (fun a ha b hb f hf => ?_)
      scan.covering
    -- the fields that the range fixes are the same in all records that it finds
    have ha := (List.mem_filter.1 ha).2
    have hb := (List.mem_filter.1 hb).2
    unfold IndexScan.finds at ha hb
    unfold ScanBounds.equalCount at hf
    split at ha
    · rename_i range hbounds
      rw [hbounds] at hb hf
      have heq := (take_eq_of_contains ha).trans (take_eq_of_contains hb).symm
      exact List.map_inj_left.1 heq f hf
    · rename_i hbounds
      rw [hbounds] at hf
      simp at hf

theorem build_inJoin (ho : c.Over v t) {field : String} (values : List Value) {index : Index}
    {batchSize : Nat} (hindex : index ∈ v.catalog.plannableIndexes t.name)
    (hlead : index.leadingField? = some field) (hbatch : batchSize ≠ 0) :
    c.build (.inJoin field values index batchSize) =
      .ok (.inJoin index values batchSize c.consistency 0 []) := by
  rw [ExecutionContext.build, ExecutionContext.buildInJoin,
    ExecutionContext.checkIndex_ok ho hindex, if_neg (by simp [hlead]), if_neg hbatch]
  rfl

theorem runs_inJoin (ho : c.Over v t) (h : v.Serves t rows) {field : String}
    {values : List Value} {index : Index} {batchSize : Nat}
    (hindex : index ∈ v.catalog.plannableIndexes t.name) (hlead : index.leadingField? = some field)
    (hvalues : values.Pairwise fun a b => a.compare b = .lt) (hbatch : batchSize ≠ 0) :
    Runs v t rows c (.inJoin field values index batchSize) id := by
  have hanswers :=
    answers_inJoin h hindex hlead (nodup_of_ascending hvalues) batchSize c.consistency
  refine ⟨_, _, build_inJoin ho values hindex hlead hbatch, hanswers, fun hordered o hpo => ?_⟩
  cases hordered with
  | inJoin _ _ _ hsettled =>
    obtain rfl := Option.some.inj hpo
    have hconst : ∀ a ∈ values.flatMap (found t rows index),
        ∀ b ∈ values.flatMap (found t rows index), ∀ f ∈ index.keyFields.take 0,
          t.valueOf a f = t.valueOf b f := by simp
    have hsorts := Index.SettledBehind.sorts (.inr hsettled) h
      (fun r hr => ((hanswers.mem r).1 hr).1) (found_ascending h hlead hvalues) hconst
    rw [List.map_id]
    exact hsorts

/-! ## Every fitting plan -/

/-- **A fitting plan that is well merged runs.** -/
theorem Fits.runs (ho : c.Over v t) (h : v.Serves t rows) (hc : v.catalog.Sound)
    (hcount : rows.length < UInt64.size) {p : Plan} {image : Record → Record}
    (hp : Fits v.catalog t p image) (hmerged : p.WellMerged v.catalog t) :
    Runs v t rows c p image := by
  induction hp with
  | fullScan =>
    refine ⟨_, rows, ?_, answers_fullScan h c.consistency, fun _ o hpo => ?_⟩
    · rw [← ho.recordType, c.build_fullScan]
    · obtain rfl := Option.some.inj hpo
      rw [List.map_id]
      -- the records of a full scan come in the order of their primary keys
      refine ⟨h.ascending.imp fun {a b} hab => ?_, by simp⟩
      show ((t.valueOf a t.primaryKey).compare (t.valueOf b t.primaryKey)).then .eq ≠ .gt
      rw [RecordType.valueOf_primaryKey, RecordType.valueOf_primaryKey, hab]
      simp
  | indexScan hindex hrank hexact => exact runs_indexScan ho h hc hcount hindex hrank hexact
  | union hfits hmerge ih =>
    cases hmerged with
    | union _ hchildren hordered =>
      exact runs_union ho h hc hfits hmerge hordered fun p hp => ih p hp (hchildren p hp)
  | @intersection children merge hne hfits hmerge ih =>
    cases hmerged with
    | intersection hchildren hordered =>
      have hruns := fun p hp => ih p hp (hchildren p hp)
      cases merge with
      | none => exact runs_probe ho h hc hne hfits hruns
      | some key =>
        exact runs_join ho h hc hne hfits (hmerge key rfl) (hordered (by simp)) hruns
  | inJoin hindex hlead hvalues hbatch => exact runs_inJoin ho h hindex hlead hvalues hbatch
  | @filter child residual image hchild hknown hread ih =>
    cases hmerged with
    | filter _ hmerged =>
      obtain ⟨node, out, hbuild, hanswers, hsorts⟩ := ih hmerged
      obtain ⟨test, htest⟩ := ExecutionContext.compile_ok ho hknown
      -- the residual reads only fields that the image keeps, so it may be tested on the stored
      -- record
      have hfiltered := answers_residual ho h hc hanswers htest fun r hr =>
        hread.holds_congr fun field hfield => hfield r (h.valid r ((hanswers.mem r).1 hr).1)
      refine ⟨_, _, ?_, hfiltered, fun hordered o hpo => ?_⟩
      · rw [ExecutionContext.build, hbuild, htest]
        rfl
      · cases hordered with
        | filter _ hordered =>
          exact (hsorts hordered o hpo).sublist (List.filter_sublist.map image)

/-! ## What an execution gives -/

/-- Opened and drained, the plan gives these records and no error, whatever was read and reported
before. -/
def Yields (c : ExecutionContext) (v : StoreView) (p : Plan) (out : List Record) : Prop :=
  ∀ m, ∃ cursor, (Cursor.open c p m).1 = .ok cursor ∧
    ∀ trace m', Cursor.Exhausts (cursor.drain v false trace m') out

theorem yields_of_drains {p : Plan} {node : CursorNode} {out : List Record}
    (hbuild : c.build p = .ok node) (hdrains : Drains v node out) : p.Yields c v out := by
  intro m
  refine ⟨{ name := p.nodeName, node, requestId := c.requestId }, ?_, fun trace m' => ?_⟩
  · rw [Cursor.open, hbuild]
  · exact Cursor.drain_exhausts hdrains rfl trace m'

/-- The plan builds, and drains to what it makes of some rows. -/
def Makes (c : ExecutionContext) (v : StoreView) (image : Record → Record) (p : Plan)
    (out : List Record) : Prop :=
  ∃ node, c.build p = .ok node ∧ Drains v node (out.map image)

section Makes

variable {p : Plan} {out : List Record} {image : Record → Record}

theorem Makes.yields (hmakes : p.Makes c v image out) : p.Yields c v (out.map image) := by
  obtain ⟨node, hbuild, hdrains⟩ := hmakes
  exact yields_of_drains hbuild hdrains

theorem Makes.yields_id (hmakes : p.Makes c v id out) : p.Yields c v out := by
  have hyields := hmakes.yields
  rwa [List.map_id] at hyields

theorem makes_fullScan (ho : c.Over v t) (h : v.Serves t rows) :
    (Plan.fullScan t.name).Makes c v id rows := by
  refine ⟨.fullScan t.name c.consistency none, ?_, ?_⟩
  · rw [← ho.recordType, c.build_fullScan]
  · rw [List.map_id]
    exact drains_fullScan h c.consistency

/-- Which rows a scan finds, and in which order, does not depend on what it makes of them. -/
theorem makes_indexScan (ho : c.Over v t) (h : v.Serves t rows) (hc : v.catalog.Sound)
    {scan : IndexScan} (hindex : scan.index ∈ v.catalog.plannableIndexes t.name)
    (hrank : scan.bounds.isRanks = true → scan.index.isRank = true) :
    (Plan.indexScan scan).Makes c v (imageOf t scan.index scan.covering)
      ((scan.index.sorted t rows).filter (scan.finds t rows)) := by
  have hname := Catalog.recordType_of_mem_indexesOf (Catalog.mem_plannableIndexes.1 hindex).1
  refine ⟨_, build_indexScan ho hindex hrank, ?_⟩
  refine drains_indexScan h hname scan.covering (fun r hr => ?_)
    (openScan_gives h hc hindex hrank c.consistency)
  exact (scan.index.sorted_perm t rows).mem_iff.1 (List.mem_filter.1 hr).1

/-- A filter passes the same rows whatever the plan makes of them, if it cannot tell
the difference. -/
theorem Makes.filter (ho : c.Over v t) (h : v.Serves t rows) (hc : v.catalog.Sound)
    (hmakes : p.Makes c v image out) {f : Filter} {test : CompiledFilter}
    (htest : c.compile f = .ok test)
    (hread : ∀ r ∈ out, f.holds (t.valueOf (image r)) (rankAmong t rows) =
      f.holds (t.valueOf r) (rankAmong t rows)) :
    (Plan.filter p f).Makes c v image
      (out.filter fun r => f.holds (t.valueOf r) (rankAmong t rows)) := by
  obtain ⟨node, hbuild, hdrains⟩ := hmakes
  refine ⟨.filter node [test], ?_, ?_⟩
  · rw [ExecutionContext.build, hbuild, htest]
    rfl
  · have hpassed := hdrains.filter fun r _ =>
      ExecutionContext.allAccept_of_compile ho h hc htest r
    have hsame : out.filter ((fun r => f.holds (t.valueOf r) (rankAmong t rows)) ∘ image) =
        out.filter fun r => f.holds (t.valueOf r) (rankAmong t rows) := List.filter_congr hread
    rwa [List.filter_map, hsame] at hpassed

/-- A residual filter that always holds is left out, which changes nothing. -/
theorem Makes.withResidual (ho : c.Over v t) (h : v.Serves t rows) (hc : v.catalog.Sound)
    (hmakes : p.Makes c v image out) {f : Filter} {test : CompiledFilter}
    (htest : c.compile f = .ok test)
    (hread : ∀ r ∈ out, f.holds (t.valueOf (image r)) (rankAmong t rows) =
      f.holds (t.valueOf r) (rankAmong t rows)) :
    (p.withResidual f).Makes c v image
      (out.filter fun r => f.holds (t.valueOf r) (rankAmong t rows)) := by
  unfold Plan.withResidual
  split
  · rename_i halways
    rwa [List.filter_eq_self.2 fun r _ => by
      simp [Filter.eq_always_of_isAlways halways, Filter.always]]
  · exact hmakes.filter ho h hc htest hread

/-- A limit cuts the rows at a place that depends on their number only. -/
theorem Makes.withLimit (hmakes : p.Makes c v image out) (limit : Option Nat) :
    (p.withLimit limit).Makes c v image (out.take (limit.getD out.length)) := by
  cases limit with
  | none =>
    rw [Option.getD_none, List.take_length]
    exact hmakes
  | some n =>
    obtain ⟨node, hbuild, hdrains⟩ := hmakes
    refine ⟨.limit node n, ?_, ?_⟩
    · rw [Plan.withLimit, ExecutionContext.build, hbuild]
      rfl
    · rw [Option.getD_some, List.map_take]
      exact hdrains.limit n

end Makes

/-- What a first execution gives. -/
def firstRun (c : ExecutionContext) (v : StoreView) (p : Plan) : List Record :=
  match (Cursor.open c p {}).1 with
  | .ok cursor => (cursor.drain v false {} {}).1
  | .error _ => []

theorem Yields.eq_firstRun {p : Plan} {out : List Record} (h : p.Yields c v out) :
    out = p.firstRun c v := by
  obtain ⟨cursor, hopen, hdrain⟩ := h {}
  rw [firstRun, hopen]
  exact (hdrain {} {}).1.symm

/-- An execution gives one list of records. -/
theorem Yields.unique {p : Plan} {out out' : List Record} (h : p.Yields c v out)
    (h' : p.Yields c v out') : out = out' := h.eq_firstRun.trans h'.eq_firstRun.symm

end Plan

end RecordLayer
