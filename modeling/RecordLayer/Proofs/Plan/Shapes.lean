import RecordLayer.Proofs.Plan.Execution
import RecordLayer.Proofs.Store.Representation

/-!
# Plans of any shape

Execution does not rely on planning. A plan tree may be put together by hand, nested in any way; as
long as each node asks for what it can deliver, and the tree builds, it gives the records for which
its matching filter holds.

`Plan.WellPosed` says what the nodes have to ask for. It speaks of the bounds of scans, of the
values of look-ups and of the outputs of merged children, never of how the children came to be in
order; so the induction follows the tree, and what it passes up is just that a child answers its
matching filter. Everything else that could be wrong with a tree is refused when it is built.
-/

namespace RecordLayer

open Reading CursorNode

namespace Plan

/-- The children of a node strictly ascend on a merge key that ends in the primary key. -/
structure Mergeable (c : ExecutionContext) (v : StoreView) (children : List Plan)
    (key : List String) : Prop where
  last : key.getLast? = some c.recordType.primaryKey
  ascends : ∀ p ∈ children, ∀ out, p.Yields c v out →
    out.Pairwise fun a b => c.recordType.compareBy key a b = .lt

/-- Each node of the plan asks for what it can deliver: scans do not cover and find just the records
that satisfy what they matched, unions leave out repetitions of the primary key, merged children
ascend on the merge key, and look-ups are of distinct values. There are no limits. -/
inductive WellPosed (c : ExecutionContext) (v : StoreView) : Plan → Prop
  | fullScan (recordType : String) : WellPosed c v (.fullScan recordType)
  | indexScan {scan : IndexScan} (hindex : scan.index ∈ c.catalog.indexes)
    (hcovering : scan.covering = false)
    (hbounds : ∀ r ∈ v.recordsOf c.recordType.name,
      scan.finds c.recordType (v.recordsOf c.recordType.name) r = scan.matched.all
        (·.holds (c.recordType.valueOf r)
          (rankAmong c.recordType (v.recordsOf c.recordType.name)))) :
    WellPosed c v (.indexScan scan)
  | union {children : List Plan} {merge : Option (List String)}
    (hchildren : ∀ p ∈ children, WellPosed c v p)
    (hmerge : ∀ key, merge = some key → Mergeable c v children key) :
    WellPosed c v (.union children (some c.recordType.primaryKey) merge)
  | intersection {children : List Plan} {merge : Option (List String)}
    (hchildren : ∀ p ∈ children, WellPosed c v p)
    (hmerge : ∀ key, merge = some key → Mergeable c v children key) :
    WellPosed c v (.intersection children merge)
  | inJoin {values : List Value} (field : String) {index : Index} (batchSize : Nat)
    (hindex : index ∈ c.catalog.indexes) (hvalues : values.Nodup) :
    WellPosed c v (.inJoin field values index batchSize)
  | filter {child : Plan} (residual : Filter) (hchild : WellPosed c v child) :
    WellPosed c v (.filter child residual)

variable {c : ExecutionContext} {v : StoreView} {t : RecordType} {rows : List Record}

/-! ## What building checks -/

/-- An index of the catalog that passed the check is one that plans may scan. -/
theorem plannable_of_checkIndex (ho : c.Over v t) {i : Index} (hi : i ∈ v.catalog.indexes)
    (hcheck : c.checkIndex i = .ok ()) : i ∈ v.catalog.plannableIndexes t.name := by
  unfold ExecutionContext.checkIndex at hcheck
  rw [ho.recordType] at hcheck
  split at hcheck
  · cases hcheck
  · rename_i hname
    split at hcheck
    · cases hcheck
    · rename_i hplannable
      refine Catalog.mem_plannableIndexes.2 ⟨?_, by simpa using hplannable⟩
      exact List.mem_filter.2 ⟨hi, by simpa using hname⟩

/-- The children of a node that was built. -/
theorem parts_of_buildAll {children : List Plan}
    (h : ∀ p ∈ children, ∀ {node}, c.build p = .ok node →
      ∃ out, Answers v t rows id node p.matchingFilter out) :
    ∀ {nodes : List CursorNode}, c.buildAll children = .ok nodes →
      ∃ parts : List Part, nodes = parts.map (·.1) ∧
        parts.map (·.2.1) = matchingFilters children ∧
        ∀ part ∈ parts, Answers v t rows id part.1 part.2.1 part.2.2 ∧
          ∃ p ∈ children, c.build p = .ok part.1 := by
  induction children with
  | nil =>
    intro nodes hnodes
    cases hnodes
    exact ⟨[], rfl, rfl, by simp⟩
  | cons p rest ih =>
    intro nodes hnodes
    obtain ⟨node, hnode, htail⟩ := exists_of_bind_eq_ok hnodes
    obtain ⟨others, hothers, hok⟩ := exists_of_bind_eq_ok htail
    cases hok
    -- a part for the first plan, and by induction those for the others
    obtain ⟨out, hout⟩ := h p (by simp) hnode
    obtain ⟨parts, rfl, hfilters, hparts⟩ :=
      ih (fun q hq => h q (List.mem_cons_of_mem _ hq)) hothers
    refine ⟨(node, p.matchingFilter, out) :: parts, rfl, ?_, fun part hpart => ?_⟩
    · rw [matchingFilters, List.map_cons, hfilters]
    · rcases List.mem_cons.1 hpart with rfl | hpart
      · exact ⟨hout, p, by simp, hnode⟩
      · obtain ⟨hanswers, q, hq, hbuild⟩ := hparts part hpart
        exact ⟨hanswers, q, List.mem_cons_of_mem _ hq, hbuild⟩

/-! ## Nodes of built plans -/

/-- A scan that was built answers what it matched. -/
theorem answers_of_buildScan (ho : c.Over v t) (h : v.Serves t rows) (hc : v.catalog.Sound)
    {scan : IndexScan} (hindex : scan.index ∈ v.catalog.indexes) (hcovering : scan.covering = false)
    (hbounds : ∀ r ∈ rows, scan.finds t rows r =
      scan.matched.all (·.holds (t.valueOf r) (rankAmong t rows)))
    {node : CursorNode} (hbuild : c.build (.indexScan scan) = .ok node) :
    ∃ out, Answers v t rows id node (matchingFilter (.indexScan scan)) out := by
  have hscan := hbuild
  rw [ExecutionContext.build] at hscan
  obtain ⟨_, hcheck, hrest⟩ := exists_of_bind_eq_ok hscan
  have hplannable := plannable_of_checkIndex ho hindex hcheck
  have hrank : scan.bounds.isRanks = true → scan.index.isRank = true := by
    -- a window of ranks over an index without a ranking is refused
    intro hranks
    cases hrank : scan.index.isRank with
    | true => rfl
    | false =>
      dsimp only at hrest
      rw [if_pos ⟨hranks, by rw [hrank]; rfl⟩] at hrest
      cases hrest
  have hname := Catalog.recordType_of_mem_indexesOf (Catalog.mem_plannableIndexes.1 hplannable).1
  have hanswers := answers_indexScan h hname scan.covering
    (openScan_gives h hc hplannable hrank c.consistency) (f := matchingFilter (.indexScan scan))
    fun r hr => by rw [hbounds r hr, matchingFilter_indexScan_holds]
  rw [build_indexScan ho hplannable hrank] at hbuild
  obtain rfl := Except.ok.inj hbuild
  rw [hcovering] at hanswers ⊢
  exact ⟨_, hanswers⟩

/-- Look-ups that were built answer the membership in the list of their values. -/
theorem answers_of_buildInJoin (ho : c.Over v t) (h : v.Serves t rows) {field : String}
    {values : List Value} {index : Index} {batchSize : Nat} (hindex : index ∈ v.catalog.indexes)
    (hvalues : values.Nodup) {node : CursorNode}
    (hbuild : c.build (.inJoin field values index batchSize) = .ok node) :
    ∃ out,
      Answers v t rows id node (matchingFilter (.inJoin field values index batchSize)) out := by
  rw [ExecutionContext.build] at hbuild
  obtain ⟨_, hcheck, hrest⟩ := exists_of_bind_eq_ok hbuild
  have hplannable := plannable_of_checkIndex ho hindex hcheck
  dsimp only at hrest
  split at hrest
  · cases hrest
  · rename_i hlead
    split at hrest
    · cases hrest
    · cases hrest
      exact ⟨_, answers_inJoin h hplannable (by simpa using hlead) hvalues batchSize c.consistency⟩

section Children

variable {children : List Plan} {parts : List Part}

/-- Built children that ascend on a merge key, with its positions. -/
theorem mergeable_parts (ho : c.Over v t) {key : List String} (hmerge : Mergeable c v children key)
    {positions : List Nat} (hpositions : key.mapM c.position = .ok positions)
    (hparts : ∀ part ∈ parts, Answers v t rows id part.1 part.2.1 part.2.2 ∧
      ∃ p ∈ children, c.build p = .ok part.1) :
    KeyPositions v t rows key positions ∧ ∀ part ∈ parts, Ascends positions part.2.2 := by
  have hkey := ExecutionContext.keyAt_of_mapM ho hpositions
  refine ⟨⟨hkey, ho.recordType ▸ hmerge.last⟩, fun part hpart => ?_⟩
  obtain ⟨hanswers, p, hp, hbuild⟩ := hparts part hpart
  have hyields := yields_of_drains hbuild hanswers.drains
  rw [List.map_id] at hyields
  refine (hmerge.ascends p hp _ hyields).imp fun hab => ?_
  rw [hkey, hkey]
  rw [ho.recordType] at hab
  exact hab

/-- A union that was built answers the disjunction of its children's filters. -/
theorem answers_of_buildUnion (ho : c.Over v t) (h : v.Serves t rows) {merge : Option (List String)}
    (hmerge : ∀ key, merge = some key → Mergeable c v children key)
    (hchildren : ∀ p ∈ children, ∀ {node}, c.build p = .ok node →
      ∃ out, Answers v t rows id node p.matchingFilter out)
    {node : CursorNode} (hbuild : c.build (.union children (some t.primaryKey) merge) = .ok node) :
    ∃ out, Answers v t rows id node
      (matchingFilter (.union children (some t.primaryKey) merge)) out := by
  rw [ExecutionContext.build] at hbuild
  obtain ⟨nodes, hnodes, hunion⟩ := exists_of_bind_eq_ok hbuild
  obtain ⟨parts, rfl, hfilters, hparts⟩ := parts_of_buildAll hchildren hnodes
  obtain ⟨i, hi, hinj⟩ := exists_keyPosition ho h
  rw [matchingFilter, ← hfilters]
  cases merge with
  | none =>
    rw [buildUnion_chain hi] at hunion
    cases hunion
    exact answers_chain (fun part hpart => (hparts part hpart).1) hinj
  | some key =>
    -- the positions of the key were found, or nothing was built
    obtain ⟨_, -, hrest⟩ := exists_of_bind_eq_ok hunion
    obtain ⟨positions, hpositions, -⟩ := exists_of_bind_eq_ok hrest
    obtain ⟨hkey, hascends⟩ := mergeable_parts ho (hmerge key rfl) hpositions hparts
    rw [buildUnion_merge hi hpositions hkey.last] at hunion
    cases hunion
    obtain ⟨out, hout, -⟩ :=
      answers_merge (fun part hpart => (hparts part hpart).1) hinj (hkey.inj h) hascends
    exact ⟨out, hout⟩

/-- An intersection that was built answers the conjunction of its children's filters. -/
theorem answers_of_buildIntersection (ho : c.Over v t) (h : v.Serves t rows)
    (hc : v.catalog.Sound) {merge : Option (List String)}
    (hmerge : ∀ key, merge = some key → Mergeable c v children key)
    (hchildren : ∀ p ∈ children, ∀ {node}, c.build p = .ok node →
      ∃ out, Answers v t rows id node p.matchingFilter out)
    {node : CursorNode} (hbuild : c.build (.intersection children merge) = .ok node) :
    ∃ out, Answers v t rows id node (matchingFilter (.intersection children merge)) out := by
  cases merge with
  | none =>
    rw [ExecutionContext.build] at hbuild
    cases children with
    | nil => cases hbuild
    | cons first rest =>
      rw [ExecutionContext.buildProbe] at hbuild
      -- the other children are never opened, only their matching filters are tested
      obtain ⟨inner, hinner, hrest⟩ := exists_of_bind_eq_ok hbuild
      obtain ⟨tests, htests, hok⟩ := exists_of_bind_eq_ok hrest
      cases hok
      obtain ⟨out, hout⟩ := hchildren first (by simp) hinner
      exact ⟨_, answers_probe ho h hc hout htests⟩
  | some key =>
    rw [ExecutionContext.build] at hbuild
    split at hbuild
    · cases hbuild
    · rename_i hne
      obtain ⟨nodes, hnodes, hrest⟩ := exists_of_bind_eq_ok hbuild
      obtain ⟨positions, hpositions, hok⟩ := exists_of_bind_eq_ok hrest
      cases hok
      obtain ⟨parts, rfl, hfilters, hparts⟩ := parts_of_buildAll hchildren hnodes
      obtain ⟨hkey, hascends⟩ := mergeable_parts ho (hmerge key rfl) hpositions hparts
      rw [matchingFilter, ← hfilters]
      have hne' : parts ≠ [] := by
        rintro rfl
        rw [matchingFilters_eq] at hfilters
        exact hne (by simpa using hfilters.symm)
      obtain ⟨out, hout, -⟩ :=
        answers_join hne' (fun part hpart => (hparts part hpart).1) (hkey.inj h) hascends
      exact ⟨out, hout⟩

end Children

/-! ## Every well-posed plan -/

/-- **A well-posed plan that builds answers its matching filter.** -/
theorem WellPosed.answers (h : v.Serves c.recordType (v.recordsOf c.recordType.name))
    (hcatalog : c.catalog = v.catalog) (hc : v.catalog.Sound) {p : Plan} (hp : p.WellPosed c v) :
    ∀ {node}, c.build p = .ok node → ∃ out, Answers v c.recordType
      (v.recordsOf c.recordType.name) id node p.matchingFilter out := by
  have ho : c.Over v c.recordType := ⟨hcatalog, rfl⟩
  -- along the tree; that merged children ascend is known of what they yield, not of
  -- how they are built
  induction hp with
  | fullScan recordType =>
    intro node hbuild
    rw [ExecutionContext.build] at hbuild
    split at hbuild
    · rename_i hname
      subst hname
      cases hbuild
      exact ⟨_, answers_fullScan h c.consistency⟩
    · cases hbuild
  | indexScan hindex hcovering hbounds =>
    intro node hbuild
    exact answers_of_buildScan ho h hc (hcatalog ▸ hindex) hcovering hbounds hbuild
  | union _ hmerge ih =>
    intro node hbuild
    exact answers_of_buildUnion ho h hmerge ih hbuild
  | intersection _ hmerge ih =>
    intro node hbuild
    exact answers_of_buildIntersection ho h hc hmerge ih hbuild
  | inJoin field batchSize hindex hvalues =>
    intro node hbuild
    exact answers_of_buildInJoin ho h (hcatalog ▸ hindex) hvalues hbuild
  | @filter child residual _ ih =>
    intro node hbuild
    rw [ExecutionContext.build] at hbuild
    obtain ⟨inner, hinner, hrest⟩ := exists_of_bind_eq_ok hbuild
    obtain ⟨test, htest, hok⟩ := exists_of_bind_eq_ok hrest
    cases hok
    obtain ⟨out, hout⟩ := ih hinner
    exact ⟨_, answers_residual ho h hc hout htest fun _ _ => rfl⟩

/-- **A well-posed plan that opens gives the stored records for which its matching filter holds,
each once, and no error,** over whatever can be seen of a store. -/
theorem WellPosed.drain_exact {catalog : Catalog} (hc : catalog.Registered)
    (hv : v.Reachable catalog) {name requestId : String} {consistency : Consistency}
    (hcreate : ExecutionContext.create catalog name consistency requestId = .ok c) {p : Plan}
    (hp : p.WellPosed c v) {m : Monitor} {cursor : Cursor}
    (hopen : (Cursor.open c p m).1 = .ok cursor) :
    ∃ out : List Record, out.Perm ((v.recordsOf name).filter fun r =>
        p.matchingFilter.holds (c.recordType.valueOf r)
          (rankAmong c.recordType (v.recordsOf name))) ∧
      ∀ trace m', Cursor.Exhausts (cursor.drain v false trace m') out := by
  -- the context is over the catalog and a registered type of that name
  unfold ExecutionContext.create at hcreate
  split at hcreate
  · rename_i t ht
    cases hcreate
    obtain ⟨-, rfl⟩ := Catalog.mem_of_recordType? ht
    have hserves := hv.serves hc.sound ht
    have hcatalog := hv.catalog_eq hc.sound
    unfold Cursor.open at hopen
    split at hopen
    · cases hopen
    · rename_i node hbuild
      cases hopen
      obtain ⟨out, hanswers⟩ :=
        hp.answers hserves hcatalog.symm (hcatalog ▸ hc.sound) hbuild
      refine ⟨out, hanswers.perm hserves, fun trace m' => ?_⟩
      have hdrains := hanswers.drains
      rw [List.map_id] at hdrains
      exact Cursor.drain_exhausts hdrains rfl trace m'
  · cases hcreate

end Plan

/-! ## A tree with every kind of node above scans -/

namespace Sample

open Plan

/-- The items of the lowest size. -/
def lowest : IndexScan := ⟨sizes, .ranks 0 (some 1), false, [.rank "size" .lt 1]⟩

/-- The items of two sizes, asked for in no order. -/
def twoSizes : Plan := .inJoin "size" [.int 9, .null] byPair 2

/-- A merge of a scan by rank and a scan of everything, probed by look-ups, under a filter. -/
def mixed : Plan :=
  .filter (.intersection [.union [.indexScan lowest, .fullScan "items"] (some "id") (some ["id"]),
    twoSizes] none) (.compare "id" .gt (.int 1))

def itemsContext : ExecutionContext :=
  { catalog := ranked, recordType := items, requestId := "" }

theorem ascends_leaf {p : Plan} (hp : p = .indexScan lowest ∨ p = .fullScan "items")
    {out : List Record} (h : p.Yields itemsContext restocked out) :
    out.Pairwise fun a b => items.compareBy ["id"] a b = .lt := by
  rw [h.eq_firstRun]
  rcases hp with rfl | rfl
  · decide +kernel
  · decide +kernel

theorem mixed_wellPosed : mixed.WellPosed itemsContext restocked := by
  have hmerge : Mergeable itemsContext restocked [.indexScan lowest, .fullScan "items"] ["id"] :=
    ⟨rfl, fun p hp out hout => ascends_leaf (by simpa using hp) hout⟩
  refine .filter _ (.intersection (fun p hp => ?_) nofun)
  rcases List.mem_cons.1 hp with rfl | hp
  · refine .union (fun q hq => ?_) fun key hkey => Option.some.inj hkey ▸ hmerge
    rcases List.mem_cons.1 hq with rfl | hq
    · exact .indexScan (by decide) rfl (by decide +kernel)
    · rw [List.mem_singleton.1 hq]
      exact .fullScan _
  · rw [List.mem_singleton.1 hp]
    exact .inJoin _ _ (by decide) (by decide)

theorem drain_exact_mixed : Catalog.Registered ranked ∧ restocked.Reachable ranked ∧
    ExecutionContext.create ranked "items" .serializable "" = .ok itemsContext ∧
    mixed.WellPosed itemsContext restocked ∧
    ∃ cursor, (Cursor.open itemsContext mixed {}).1 = .ok cursor ∧
      ∃ out : List Record, out.Perm ((restocked.recordsOf "items").filter fun r =>
          mixed.matchingFilter.holds (items.valueOf r)
            (rankAmong items (restocked.recordsOf "items"))) ∧
        ∀ trace m', Cursor.Exhausts (cursor.drain restocked false trace m') out := by
  cases hopen : (Cursor.open itemsContext mixed {}).1 with
  | error e =>
    have hok : (Cursor.open itemsContext mixed {}).1.isOk = true := by decide +kernel
    rw [hopen] at hok
    cases hok
  | ok cursor =>
    exact ⟨ranked_registered, restocked_reachable, rfl, mixed_wellPosed, cursor, rfl,
      WellPosed.drain_exact ranked_registered restocked_reachable rfl mixed_wellPosed hopen⟩

end Sample

end RecordLayer
