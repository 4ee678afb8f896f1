import RecordLayer.Proofs.Candidates.Matching
import RecordLayer.Proofs.Filter.Normal
import RecordLayer.Proofs.Plan.Shapes

/-!
# Scanning bounds agrees with filtering

A scan that matches conjuncts is a short cut: its records are those that a scan of everything gives
under the conjuncts, only in the order of the index. This is said of executions, from the opening of
a plan to the end of its records.

* **By key.** What is left of the conjuncts is the residual filter of the scan. Bounds take
  comparisons of declared fields only, so whatever cannot be bound to the record type is in the
  residual as well as among all conjuncts, and both plans are refused for the first such conjunct.
* **By rank.** A window is cut out by any conditions on the ranks of one field; asking the ranking
  for the rank of each record says the same.
-/

namespace RecordLayer

open Reading CursorNode PlanningContext

/-! ## What cannot be bound -/

/-- The error of a computation that fails. -/
def refusal? {ε α : Type} : Except ε α → Option ε
  | .error e => some e
  | .ok _ => none

theorem refusal?_eq_none {ε α : Type} {x : Except ε α} (h : refusal? x = none) :
    ∃ a, x = .ok a := by
  cases x with
  | error e => cases h
  | ok a => exact ⟨a, rfl⟩

theorem refusal?_eq_some {ε α : Type} {x : Except ε α} {e : ε} (h : refusal? x = some e) :
    x = .error e := by
  cases x with
  | error e' => rw [Option.some.inj h]
  | ok a => cases h

namespace CompiledNode

variable {c : Catalog} {t : RecordType} {conjuncts : List Filter} {used : List Nat}

/-- Filters are refused for the first one that cannot be bound. -/
theorem refusal?_ofFilters (fs : List Filter) :
    refusal? (ofFilters c t fs) = fs.findSome? fun f => refusal? (ofFilter c t f) := by
  induction fs with
  | nil => rfl
  | cons f rest ih =>
    rw [ofFilters, List.findSome?_cons, ← ih]
    cases ofFilter c t f with
    | error e => rfl
    | ok node => cases ofFilters c t rest <;> rfl

theorem refusal?_all (fs : List Filter) :
    refusal? (ofFilter c t (.all fs)) = fs.findSome? fun f => refusal? (ofFilter c t f) := by
  rw [← refusal?_ofFilters, ofFilter]
  cases ofFilters c t fs <;> rfl

/-- Leaving out elements for which nothing is found does not change what is found first. -/
theorem findSome?_filter {α β : Type} {p : α → Bool} {f : α → Option β} {l : List α}
    (h : ∀ a ∈ l, p a = false → f a = none) : (l.filter p).findSome? f = l.findSome? f := by
  induction l with
  | nil => rfl
  | cons a l ih =>
    have ih := ih fun b hb => h b (List.mem_cons_of_mem _ hb)
    cases hp : p a with
    | true => rw [List.filter_cons_of_pos hp, List.findSome?_cons, List.findSome?_cons, ih]
    | false =>
      rw [List.filter_cons_of_neg (by simp [hp]), List.findSome?_cons, h a (by simp) hp, ih]

/-- **What cannot be bound stays.** If the conjuncts at some positions can be bound, the residual of
the others is refused just as all conjuncts are. -/
theorem refusal?_residual (h : ∀ n ∈ used, ∀ f, conjuncts[n]? = some f →
      refusal? (ofFilter c t f) = none) :
    refusal? (ofFilter c t (residual conjuncts used)) =
      refusal? (ofFilter c t (.all conjuncts)) := by
  have hothers : (others conjuncts used).findSome? (fun f => refusal? (ofFilter c t f)) =
      conjuncts.findSome? fun f => refusal? (ofFilter c t f) := by
    have hskip := findSome?_filter (p := fun p : Filter × Nat => !used.contains p.2)
      (f := fun p => refusal? (ofFilter c t p.1)) (l := conjuncts.zipIdx) fun p hp hused =>
        h p.2 (by simpa using hused) p.1 (List.mem_zipIdx_iff_getElem?.1 hp)
    have hpairs : conjuncts.zipIdx.findSome? ((fun f => refusal? (ofFilter c t f)) ∘ (·.1)) =
        conjuncts.findSome? fun f => refusal? (ofFilter c t f) := by
      rw [← List.findSome?_map, List.zipIdx_map_fst]
    rw [others, List.findSome?_map]
    exact hskip.trans hpairs
  rw [refusal?_all, ← hothers]
  rcases residual_cases conjuncts used with ⟨hnone, hrest⟩ | ⟨f, hone, hrest⟩ | hrest
  · rw [hnone, hrest]
    rfl
  · rw [hone, hrest, List.findSome?_singleton]
  · rw [hrest, refusal?_all]

end CompiledNode

theorem ExecutionContext.refusal?_compile (c : ExecutionContext) (f : Filter) :
    refusal? (c.compile f) =
      (refusal? (CompiledNode.ofFilter c.catalog c.recordType f)).map schemaError := by
  rw [compile, CompiledFilter.compile]
  cases CompiledNode.ofFilter c.catalog c.recordType f <;> rfl

/-! ## Filters above scans -/

namespace Plan

variable {c : ExecutionContext} {v : StoreView} {t : RecordType} {rows : List Record}
variable {p : Plan} {node : CursorNode} {out : List Record} {f : Filter}

/-- A plan under a filter that does not compile is not opened. -/
theorem open_filter {e : ExecutionError} (hbuild : c.build p = .ok node)
    (hcompile : refusal? (c.compile f) = some e) (m : Monitor) :
    (Cursor.open c (.filter p f) m).1 = .error e := by
  have hfilter : c.build (.filter p f) = .error e := by
    rw [ExecutionContext.build, hbuild, refusal?_eq_some hcompile]
    rfl
  rw [Cursor.open, hfilter]

theorem open_withResidual {e : ExecutionError} (hbuild : c.build p = .ok node)
    (hcompile : refusal? (c.compile f) = some e) (m : Monitor) :
    (Cursor.open c (p.withResidual f) m).1 = .error e := by
  unfold withResidual
  split
  · rename_i halways
    rw [Filter.eq_always_of_isAlways halways] at hcompile
    cases hcompile
  · exact open_filter hbuild hcompile m

/-- The first plan gives the records of the second one, but in the order of an index; or both are
refused with one error. -/
def AgreesInOrder (c : ExecutionContext) (v : StoreView) (i : Index) (p q : Plan) : Prop :=
  (∃ out all, p.Yields c v out ∧ q.Yields c v all ∧ out.Perm all ∧ out.Pairwise fun a b =>
    (i.entryOf c.recordType a).compare (i.entryOf c.recordType b) = .lt) ∨
  ∃ e, ∀ m, (Cursor.open c p m).1 = .error e ∧ (Cursor.open c q m).1 = .error e

end Plan

/-! ## By key -/

section Key

variable {catalog : Catalog} {v : StoreView} {t : RecordType} {rows : List Record} {i : Index}
variable {conjuncts : List Filter}

/-- A scan whose range is exact for some conjuncts agrees with all conjuncts, under the
residual of the others. -/
theorem Plan.agrees_of_exact {c : ExecutionContext} (ho : c.Over v t) (h : v.Serves t rows)
    (hc : v.catalog.Sound) (hi : i ∈ v.catalog.plannableIndexes t.name) {range : KeyRange}
    {used : List Nat} {matched : List Filter}
    (hbound : ∀ n ∈ used, ∀ f, conjuncts[n]? = some f →
      refusal? (CompiledNode.ofFilter c.catalog c.recordType f) = none)
    (hexact : ∀ r ∈ rows, range.contains (i.keyOf t r) = true ↔
      Enforced conjuncts used (t.valueOf r) (rankAmong t rows)) :
    AgreesInOrder c v i
      ((Plan.indexScan ⟨i, .keys range, false, matched⟩).withResidual (residual conjuncts used))
      (.filter (.fullScan t.name) (.all conjuncts)) := by
  have hscan : c.build (.indexScan ⟨i, .keys range, false, matched⟩) =
      .ok (.indexScan i (.keys range) false c.consistency none) := build_indexScan ho hi nofun
  have hfull : c.build (.fullScan t.name) = .ok (.fullScan t.name c.consistency none) := by
    rw [ExecutionContext.build, ho.recordType, if_pos rfl]
  have hrefusal : refusal? (c.compile (residual conjuncts used)) =
      refusal? (c.compile (.all conjuncts)) := by
    rw [ExecutionContext.refusal?_compile, ExecutionContext.refusal?_compile,
      CompiledNode.refusal?_residual hbound]
  -- both plans are refused with the same error, or both run
  cases hcompile : refusal? (c.compile (.all conjuncts)) with
  | some e =>
    rw [hcompile] at hrefusal
    exact .inr ⟨e, fun m => ⟨open_withResidual hscan hrefusal m, open_filter hfull hcompile m⟩⟩
  | none =>
    rw [hcompile] at hrefusal
    obtain ⟨rest, hrest⟩ := refusal?_eq_none hrefusal
    obtain ⟨all, hall⟩ := refusal?_eq_none hcompile
    have hfound : Makes c v id (.indexScan ⟨i, .keys range, false, matched⟩)
        ((i.sorted t rows).filter fun r => range.contains (i.keyOf t r)) :=
      makes_indexScan ho h hc hi nofun
    refine .inl ⟨_, _, (hfound.withResidual ho h hc hrest fun _ _ => rfl).yields_id,
      ((makes_fullScan ho h).filter ho h hc hall fun _ _ => rfl).yields_id, ?_, ?_⟩
    · -- the bounds and the residual come to all conjuncts
      rw [List.filter_filter]
      refine (((i.sorted_perm t rows).filter _).trans (.of_eq (List.filter_congr fun r hr => ?_)))
      rw [Bool.eq_iff_iff, Bool.and_eq_true, and_comm, hexact r hr]
      exact enforced_and_residual
    · rw [ho.recordType]
      exact ((i.sorted_ascending t h.keys_ne).filter _).filter _

/-- **The bounds of a scan by key are exact.** The scan takes some comparisons of fields of the key.
Of every stored record, the key lies in the range of the scan if and only if these comparisons hold
of the record. In every execution, the scan under the residual of the other conjuncts gives the
records that a scan of everything gives under all conjuncts, but in the order of the index; where a
conjunct cannot be bound to the record type, both are refused alike. -/
theorem matchValue_agrees (hc : catalog.Registered) (hv : v.Reachable catalog)
    (ht : catalog.recordType? t.name = some t) (hi : i ∈ catalog.plannableIndexes t.name)
    {m : IndexMatch} (hm : matchValue? conjuncts i = some m) :
    ∃ range used, m = ⟨⟨i, .keys range, false, taken conjuncts used⟩, used⟩ ∧
      (∀ n ∈ used, ∃ field ∈ i.keyFields, ∃ op value,
        conjuncts[n]? = some (.compare field op value)) ∧
      (∀ r ∈ v.recordsOf t.name, range.contains (i.keyOf t r) = true ↔
        Enforced conjuncts used (t.valueOf r) (rankAmong t (v.recordsOf t.name))) ∧
      ∀ consistency requestId, ∃ c,
        ExecutionContext.create catalog t.name consistency requestId = .ok c ∧
          Plan.AgreesInOrder c v i
            ((Plan.indexScan m.scan).withResidual (residual conjuncts used))
            (.filter (.fullScan t.name) (.all conjuncts)) := by
  have hcatalog := hv.catalog_eq hc.sound
  have hfits := hc.sound.fits ht (Catalog.mem_plannableIndexes.1 hi).1
  obtain ⟨range, used, rfl, hcompares, hexact⟩ := matchValue?_spec hm
  refine ⟨range, used, rfl, hcompares, fun r _ => hexact _ _, fun consistency requestId =>
    ⟨⟨catalog, t, consistency, requestId⟩, by rw [ExecutionContext.create, ht],
      Plan.agrees_of_exact ⟨hcatalog.symm, rfl⟩ (hv.serves hc.sound ht) (hcatalog ▸ hc.sound)
        (hcatalog ▸ hi) (fun n hn f hf => ?_) fun r _ => hexact _ _⟩⟩
  obtain ⟨field, hfield, op, value, hn⟩ := hcompares n hn
  obtain rfl := Option.some.inj (hf.symm.trans hn)
  -- fields of the key are declared, so comparisons of them are never refused
  obtain ⟨position, hposition, -⟩ :=
    RecordType.exists_position (hfits.field field (by simp [hfield]))
  simp only [CompiledNode.ofFilter, hposition]
  rfl

namespace Sample

/-- An equality, a bound and a condition that no range expresses. -/
def ofSizeNine : List Filter :=
  [.compare "id" .ge (.int 2), .compare "size" .ne .null, .compare "size" .eq (.int 9)]

theorem matchValue_agrees_ofSizeNine : Catalog.Registered ranked ∧ restocked.Reachable ranked ∧
    ranked.recordType? items.name = some items ∧ byPair ∈ ranked.plannableIndexes items.name ∧
      ∃ range used, matchValue? ofSizeNine byPair =
          some ⟨⟨byPair, .keys range, false, taken ofSizeNine used⟩, used⟩ ∧
        used = [0, 2] ∧ range.equal = [.int 9] ∧
        (∀ r ∈ restocked.recordsOf items.name, range.contains (byPair.keyOf items r) = true ↔
          Enforced ofSizeNine used (items.valueOf r)
            (rankAmong items (restocked.recordsOf items.name))) ∧
        Plan.AgreesInOrder itemsContext restocked byPair
          ((Plan.indexScan ⟨byPair, .keys range, false, taken ofSizeNine used⟩).withResidual
            (residual ofSizeNine used))
          (.filter (.fullScan items.name) (.all ofSizeNine)) := by
  have hi : byPair ∈ ranked.plannableIndexes items.name := by decide +kernel
  have hm : matchValue? ofSizeNine byPair = some ⟨⟨byPair,
        .keys ⟨[.int 9], .included (.int 2), .unbounded⟩, false, taken ofSizeNine [0, 2]⟩,
      [0, 2]⟩ := by
    rfl
  obtain ⟨range, used, heq, -, hexact, hagrees⟩ :=
    matchValue_agrees ranked_registered restocked_reachable (t := items) rfl hi hm
  have hscan := congrArg (·.scan.bounds) heq
  obtain rfl : [0, 2] = used := congrArg (·.used) heq
  obtain rfl : (⟨[.int 9], .included (.int 2), .unbounded⟩ : KeyRange) = range :=
    ScanBounds.keys.inj hscan
  obtain ⟨c, hcreate, hagrees⟩ := hagrees .serializable ""
  obtain rfl : itemsContext = c := Except.ok.inj hcreate
  exact ⟨ranked_registered, restocked_reachable, rfl, hi, _, _, hm, rfl, rfl, hexact, hagrees⟩

end Sample

end Key

/-! ## By rank -/

section Ranks

variable {catalog : Catalog} {v : StoreView} {t : RecordType} {rows : List Record} {i : Index}
variable {field : String}

/-- Conditions on the rank of one field. -/
abbrev rankConditions (field : String) (leaves : List (Comparator × UInt64)) : List Filter :=
  leaves.map fun leaf => .rank field leaf.1 leaf.2

/-- A field with a rank index may be asked for ranks. -/
theorem known_rankConditions {c : Catalog} (hfits : Catalog.Fits t i)
    (hi : i ∈ c.indexesOf t.name) (hrank : i.isRank = true) (hlead : i.leadingField? = some field)
    (leaves : List (Comparator × UInt64)) : ∀ f ∈ rankConditions field leaves, f.Known c t := by
  intro f hf
  obtain ⟨leaf, -, rfl⟩ := List.mem_map.1 hf
  have hkey : field ∈ i.keyFields := List.mem_of_head? hlead
  exact .rank (hfits.field field (by simp [hkey]))
    (List.find?_isSome.2 ⟨i, List.mem_filter.2 ⟨hi, by simp [hlead]⟩, hrank⟩)

/-- Conditions that each have a window are all taken by a scan by rank. -/
theorem matchRank?_rankConditions {leaves : List (Comparator × UInt64)} (hne : leaves ≠ [])
    (hop : ∀ leaf ∈ leaves, leaf.1 ≠ .ne) (hlead : i.leadingField? = some field) :
    ∃ start stop used, matchRank? (rankConditions field leaves) i =
        some ⟨⟨i, .ranks start stop, false, rankConditions field leaves⟩, used⟩ ∧
      (∀ n, n ∈ used ↔ n < leaves.length) ∧
      ∀ (value : String → Value) (rankOf : String → Value → UInt64),
        rankOf field (value field) ≠ maxRank →
        (inWindow start stop (rankOf field (value field)) = true ↔
          (Filter.all (rankConditions field leaves)).holds value rankOf = true) := by
  have hpairs : ∀ p ∈ (rankConditions field leaves).zipIdx,
      ∃ op n, p.1 = .rank field op n ∧ op ≠ .ne := by
    intro p hp
    obtain ⟨leaf, hleaf, heq⟩ := List.mem_map.1
      (List.mem_of_getElem? (List.mem_zipIdx_iff_getElem?.1 hp))
    exact ⟨leaf.1, leaf.2, heq.symm, hop leaf hleaf⟩
  have hused : (bindRanks field (rankConditions field leaves).zipIdx 0 none []).2.2 =
      (List.range' 0 leaves.length).reverse := by
    rw [bindRanks_used hpairs, List.append_nil, List.zipIdx_map_snd, List.length_map]
  cases hm : matchRank? (rankConditions field leaves) i with
  | none =>
    -- at least one position is used
    rw [matchRank?, hlead] at hm
    have hnone : (bindRanks field (rankConditions field leaves).zipIdx 0 none []).2.2 = [] := by
      simpa using hm
    rw [hused] at hnone
    simp [hne] at hnone
  | some m =>
    obtain ⟨start, stop, used, rfl, hpositions, hexact⟩ := matchRank?_spec hlead hm
    rw [hused] at hpositions
    have hmem : ∀ n, n ∈ used ↔ n < leaves.length := fun n => by simp [hpositions]
    have htaken : taken (rankConditions field leaves) used = rankConditions field leaves :=
      taken_of_all fun n hn => (hmem n).2 (by simpa using hn)
    refine ⟨start, stop, used, by rw [htaken], hmem, fun value rankOf hmax => ?_⟩
    rw [hexact value rankOf hmax, ← taken_holds, htaken, Filter.holds_all]

/-- A scan by rank makes the rows whose number of smaller values lies in its window. -/
theorem Plan.makes_ranks {c : ExecutionContext} (ho : c.Over v t) (h : v.Serves t rows)
    (hc : v.catalog.Sound) (hi : i ∈ v.catalog.plannableIndexes t.name) (hrank : i.isRank = true)
    (hkey : i.keyFields = [field]) (start : UInt64) (stop : Option UInt64)
    (matched : List Filter) :
    Makes c v id (.indexScan ⟨i, .ranks start stop, false, matched⟩)
      ((i.sorted t rows).filter fun r =>
        countInWindow start stop (countBelow t rows field (t.valueOf r field))) := by
  have hfinds : IndexScan.finds ⟨i, .ranks start stop, false, matched⟩ t rows = fun r =>
      countInWindow start stop (countBelow t rows field (t.valueOf r field)) := by
    funext r
    simp only [IndexScan.finds, hkey, List.all_cons, List.all_nil, Bool.and_true]
  have hfound : Makes c v id (.indexScan ⟨i, .ranks start stop, false, matched⟩)
      ((i.sorted t rows).filter
        (IndexScan.finds ⟨i, .ranks start stop, false, matched⟩ t rows)) :=
    makes_indexScan ho h hc hi fun _ => hrank
  rwa [hfinds] at hfound

/-- **Scans by rank agree with conditions on ranks.** With fewer than `UInt64.size` records,
conditions on the ranks of a field, none of them an inequality, are all taken by the scan of a
rank index of the field. In every execution the scan gives each record once, in the order of the
index, and it gives a record if and only if the conditions, which ask the store for the rank of
its value, accept it. -/
theorem matchRank_agrees (hc : catalog.Registered) (hv : v.Reachable catalog)
    (ht : catalog.recordType? t.name = some t) (hi : i ∈ catalog.indexesOf t.name)
    (hrank : i.isRank = true) (hlead : i.leadingField? = some field)
    (hcount : (v.recordsOf t.name).length < UInt64.size) {leaves : List (Comparator × UInt64)}
    (hne : leaves ≠ []) (hop : ∀ leaf ∈ leaves, leaf.1 ≠ .ne) :
    ∃ start stop used, matchRank? (rankConditions field leaves) i =
        some ⟨⟨i, .ranks start stop, false, rankConditions field leaves⟩, used⟩ ∧
      (∀ n, n ∈ used ↔ n < leaves.length) ∧
      ∀ consistency requestId, ∃ c,
        ExecutionContext.create catalog t.name consistency requestId = .ok c ∧
          ∃ tests out, c.compileAll (rankConditions field leaves) = .ok tests ∧
            (Plan.indexScan ⟨i, .ranks start stop, false, rankConditions field leaves⟩).Yields
              c v out ∧
            (out.Pairwise fun a b => (i.entryOf t a).compare (i.entryOf t b) = .lt) ∧
            (∀ r ∈ out, r ∈ v.recordsOf t.name) ∧
            ∀ r ∈ v.recordsOf t.name,
              (CompiledFilter.allAccept v r tests).Gives (decide (r ∈ out)) := by
  have hserves := hv.serves hc.sound ht
  have hcatalog := hv.catalog_eq hc.sound
  have hsound : v.catalog.Sound := hcatalog ▸ hc.sound
  have hfits := hc.sound.fits ht hi
  obtain ⟨key, hkey⟩ := List.length_eq_one_iff.1 (hfits.rank hrank)
  obtain rfl : key = field := by simpa [Index.leadingField?, hkey] using hlead
  have hplannable : i ∈ v.catalog.plannableIndexes t.name := by
    rw [hcatalog]
    exact Catalog.mem_plannableIndexes.2 ⟨hi, hfits.plannable hrank⟩
  obtain ⟨start, stop, used, hm, hused, hexact⟩ := matchRank?_rankConditions hne hop hlead
  refine ⟨start, stop, used, hm, hused, fun consistency requestId =>
    ⟨⟨catalog, t, consistency, requestId⟩, by rw [ExecutionContext.create, ht], ?_⟩⟩
  have ho : ExecutionContext.Over ⟨catalog, t, consistency, requestId⟩ v t := ⟨hcatalog.symm, rfl⟩
  obtain ⟨tests, htests⟩ := ExecutionContext.compileAll_ok ho
    (known_rankConditions hfits (hcatalog ▸ hi) hrank hlead leaves)
  have hfound := Plan.makes_ranks ho hserves hsound hplannable hrank hkey start stop
    (rankConditions key leaves)
  refine ⟨tests, _, htests, hfound.yields_id,
    (i.sorted_ascending t hserves.keys_ne).filter _,
    fun r hr => (i.sorted_perm t _).mem_iff.1 (List.mem_filter.1 hr).1, fun r hr => ?_⟩
  -- the window is one of ranks, and no rank of a stored value is cut
  have hsame : (Filter.all (rankConditions key leaves)).holds (t.valueOf r)
      (rankAmong t (v.recordsOf t.name)) =
        decide (r ∈ (i.sorted t (v.recordsOf t.name)).filter fun r =>
          countInWindow start stop (countBelow t (v.recordsOf t.name) key (t.valueOf r key))) := by
    rw [Bool.eq_iff_iff, ← hexact _ _ (rankAmong_ne_max hcount hr key), inWindow_eq,
      rankAmong_toNat hcount, decide_eq_true_iff, List.mem_filter,
      (i.sorted_perm t _).mem_iff, and_iff_right hr]
  rw [← hsame]
  exact ExecutionContext.allAccept_of_compileAll ho hserves hsound htests r

namespace Sample

/-- The rank of an item is at least one and, as any, at most the largest one. -/
def fromOne : List (Comparator × UInt64) := [(.ge, 1), (.le, maxRank)]

/-- Of the two items left, the one without a size has rank zero. -/
theorem matchRank_agrees_fromOne : Catalog.Registered ranked ∧ restocked.Reachable ranked ∧
    ranked.recordType? items.name = some items ∧ sizes ∈ ranked.indexesOf items.name ∧
      sizes.isRank = true ∧ sizes.leadingField? = some "size" ∧
      (restocked.recordsOf items.name).length < UInt64.size ∧ fromOne ≠ [] ∧
      (∀ leaf ∈ fromOne, leaf.1 ≠ .ne) ∧
      ∃ start stop used, matchRank? (rankConditions "size" fromOne) sizes =
          some ⟨⟨sizes, .ranks start stop, false, rankConditions "size" fromOne⟩, used⟩ ∧
        ∃ tests out, itemsContext.compileAll (rankConditions "size" fromOne) = .ok tests ∧
          (Plan.indexScan ⟨sizes, .ranks start stop, false, rankConditions "size" fromOne⟩).Yields
            itemsContext restocked out ∧
          ∀ r ∈ restocked.recordsOf items.name,
            (CompiledFilter.allAccept restocked r tests).Gives (decide (r ∈ out)) := by
  have hi : sizes ∈ ranked.indexesOf items.name := by decide +kernel
  have hcount : (restocked.recordsOf items.name).length < UInt64.size := by decide +kernel
  obtain ⟨start, stop, used, hm, -, hagrees⟩ := matchRank_agrees ranked_registered
    restocked_reachable (t := items) rfl hi rfl rfl hcount (by decide : fromOne ≠ []) (by decide)
  obtain ⟨c, hcreate, tests, out, htests, hyields, -, -, haccept⟩ := hagrees .serializable ""
  obtain rfl : itemsContext = c := Except.ok.inj hcreate
  exact ⟨ranked_registered, restocked_reachable, rfl, hi, rfl, rfl, hcount, by decide, by decide,
    start, stop, used, hm, tests, out, htests, hyields, haccept⟩

end Sample

end Ranks

end RecordLayer
