import RecordLayer.Proofs.Cursor.Join
import RecordLayer.Proofs.Cursor.StableMerge
import RecordLayer.Proofs.Cursor.Windows
import RecordLayer.Proofs.Index

/-!
# Nodes answer filters

A node answers a filter if it drains to the rows for which the filter holds, each once. This file
has one statement for each kind of node: from what its children answer, what the node answers.

A scan that covers a query gives images of the rows instead of the rows. Only such a scan and the
filters above it have an image other than the row itself.

* A merge and a join go by a key. Their children strictly ascend on it, and it tells rows apart, so
  that equal keys mean the same row.
* A chain remembers the primary keys that it gave; a merge remembers the last one only, which is
  enough because repetitions are next to each other.
-/

namespace RecordLayer

open Reading

namespace CursorNode

/-- The node drains to the images of the rows for which the filter holds, each once. -/
structure Answers (v : StoreView) (t : RecordType) (rows : List Record) (image : Record → Record)
    (node : CursorNode) (f : Filter) (out : List Record) : Prop where
  drains : Drains v node (out.map image)
  nodup : out.Nodup
  mem : ∀ r, r ∈ out ↔ r ∈ rows ∧ f.holds (t.valueOf r) (rankAmong t rows) = true

variable {v : StoreView} {t : RecordType} {rows : List Record} {image : Record → Record}

/-- What answers a filter is some arrangement of the rows for which it holds. -/
theorem Answers.perm {node : CursorNode} {f : Filter} {out : List Record}
    (h : Answers v t rows image node f out) (hserves : v.Serves t rows) :
    out.Perm (rows.filter fun r => f.holds (t.valueOf r) (rankAmong t rows)) := by
  refine (List.perm_ext_iff_of_nodup h.nodup (hserves.nodup.filter _)).2 fun r => ?_
  rw [h.mem, List.mem_filter]

/-- The records strictly ascend on a key. -/
def Ascends (key : List Nat) (out : List Record) : Prop :=
  out.Pairwise fun a b => Value.compareLists (a.keyAt key) (b.keyAt key) = .lt

/-! ## Leaves -/

/-- **A full scan answers the filter that always holds.** -/
theorem answers_fullScan (h : v.Serves t rows) (consistency : Consistency) :
    Answers v t rows id (.fullScan t.name consistency none) .always rows where
  drains := by
    rw [List.map_id]
    exact drains_fullScan h consistency
  nodup := h.nodup
  mem r := by simp [Filter.always]

/-- **A scan of an index answers a filter that holds for just the rows it finds.** -/
theorem answers_indexScan (h : v.Serves t rows) {i : Index} (hi : i.recordType = t.name)
    {bounds : ScanBounds} (covering : Bool) {consistency : Consistency} {p : Record → Bool}
    {f : Filter}
    (hopen : Opens v i bounds consistency (((i.sorted t rows).filter p).map (i.rowOf t)))
    (hp : ∀ r ∈ rows, p r = f.holds (t.valueOf r) (rankAmong t rows)) :
    Answers v t rows (imageOf t i covering) (.indexScan i bounds covering consistency none) f
      ((i.sorted t rows).filter p) where
  drains := drains_indexScan h hi covering
    (fun r hr => (i.sorted_perm t rows).mem_iff.1 (List.mem_filter.1 hr).1) hopen
  nodup := ((i.sorted_perm t rows).nodup_iff.2 h.nodup).filter _
  mem r := by
    rw [List.mem_filter, (i.sorted_perm t rows).mem_iff]
    exact and_congr_right fun hr => by rw [hp r hr]

/-! ## Filters -/

/-- **A filter node answers the conjunction of its child's filter and its own.** -/
theorem Answers.filter {node : CursorNode} {f g : Filter} {out : List Record}
    (h : Answers v t rows image node f out) {tests : List CompiledFilter}
    (htests : ∀ r, (CompiledFilter.allAccept v r tests).Gives
      (g.holds (t.valueOf r) (rankAmong t rows)))
    (himage : ∀ r ∈ out, g.holds (t.valueOf (image r)) (rankAmong t rows) =
      g.holds (t.valueOf r) (rankAmong t rows)) :
    Answers v t rows image (.filter node tests) (.all [f, g])
      (out.filter fun r => g.holds (t.valueOf r) (rankAmong t rows)) where
  drains := by
    have hdrains := h.drains.filter fun r _ => htests r
    rw [List.filter_map] at hdrains
    rw [List.filter_congr fun r hr => (himage r hr).symm]
    exact hdrains
  nodup := h.nodup.filter _
  mem r := by
    rw [List.mem_filter, h.mem]
    simp [and_assoc]

/-! ## Chains -/

/-- The first records of the values of a field that tells records apart are all the records, each
once. -/
theorem firstOfEach_spec {position : Nat} {out : List Record}
    (hinj : ∀ r ∈ out, ∀ s ∈ out, r.get position = s.get position → r = s) :
    (firstOfEach position out).Nodup ∧ ∀ r, r ∈ firstOfEach position out ↔ r ∈ out := by
  induction hlen : out.length using Nat.strongRecOn generalizing out with
  | ind n ih =>
    cases out with
    | nil => simp [firstOfEach]
    | cons x rest =>
      -- behind a record stand the first records of the others
      have hless : (rest.filter fun r => r.get position ≠ x.get position).length < n := by
        rw [← hlen]
        exact Nat.lt_succ_of_le (List.length_filter_le _ _)
      have hrest : ∀ r, r ∈ rest.filter (fun r => r.get position ≠ x.get position) ↔
          r ∈ rest ∧ r ≠ x := by
        intro r
        rw [List.mem_filter]
        refine and_congr_right fun hr => ?_
        have hsame : r.get position = x.get position ↔ r = x :=
          ⟨hinj r (List.mem_cons_of_mem _ hr) x (by simp), fun heq => by rw [heq]⟩
        simpa using not_congr hsame
      obtain ⟨hnodup, hmem⟩ := ih _ hless (fun r hr s hs =>
        hinj r (List.mem_cons_of_mem _ ((hrest r).1 hr).1) s
          (List.mem_cons_of_mem _ ((hrest s).1 hs).1)) rfl
      rw [firstOfEach_cons]
      refine ⟨List.nodup_cons.2 ⟨fun hx => ?_, hnodup⟩, fun r => ?_⟩
      · exact ((hrest x).1 ((hmem x).1 hx)).2 rfl
      · rw [List.mem_cons, hmem, hrest, List.mem_cons]
        by_cases heq : r = x <;> simp [heq]

/-- Children of a node with what they answer. -/
abbrev Part := CursorNode × Filter × List Record

theorem drains_of_answers {children : List Part}
    (h : ∀ c ∈ children, Answers v t rows id c.1 c.2.1 c.2.2) :
    ∀ p ∈ children.map fun c => (c.1, c.2.2), Drains v p.1 p.2 := by
  intro p hp
  obtain ⟨c, hc, rfl⟩ := List.mem_map.1 hp
  simpa using (h c hc).drains

/-- What the children give, taken together, is what answers the disjunction of their filters. -/
theorem mem_parts {children : List Part}
    (h : ∀ c ∈ children, Answers v t rows id c.1 c.2.1 c.2.2) (r : Record) :
    r ∈ children.flatMap (·.2.2) ↔ r ∈ rows ∧
      (Filter.any (children.map (·.2.1))).holds (t.valueOf r) (rankAmong t rows) = true := by
  rw [List.mem_flatMap, Filter.holds_any, List.any_map, List.any_eq_true]
  simp only [Function.comp]
  constructor
  · rintro ⟨c, hc, hr⟩
    obtain ⟨hrow, hholds⟩ := ((h c hc).mem r).1 hr
    exact ⟨hrow, c, hc, hholds⟩
  · rintro ⟨hrow, c, hc, hholds⟩
    exact ⟨c, hc, ((h c hc).mem r).2 ⟨hrow, hholds⟩⟩

/-- **A chain answers the disjunction of its children's filters,** if it leaves out repetitions of a
field that tells rows apart. -/
theorem answers_chain {children : List Part}
    (h : ∀ c ∈ children, Answers v t rows id c.1 c.2.1 c.2.2) {position : Nat}
    (hinj : ∀ r ∈ rows, ∀ s ∈ rows, r.get position = s.get position → r = s) :
    ∃ out, Answers v t rows id
      (.chain (children.map (·.1)) (some { position, adjacent := false }))
      (.any (children.map (·.2.1))) out := by
  have hrows : ∀ r ∈ children.flatMap (·.2.2), r ∈ rows := fun r hr => ((mem_parts h r).1 hr).1
  obtain ⟨hnodup, hmem⟩ := firstOfEach_spec fun r hr s hs => hinj r (hrows r hr) s (hrows s hs)
  refine ⟨_, ⟨?_, hnodup, fun r => by rw [hmem, mem_parts h]⟩⟩
  have hdrains := drains_chain (some { position, adjacent := false }) (drains_of_answers h)
  rw [List.map_map, List.flatMap_map, keep_all_eq] at hdrains
  rw [List.map_id]
  exact hdrains

/-! ## Merges -/

/-- Records that do not descend on a key strictly ascend on it if neighbours have different keys. -/
theorem Climbs.ascends {key : List Nat} {out : List Record} (h : Climbs key out)
    (hne : out.IsChain fun a b => a.keyAt key ≠ b.keyAt key) : Ascends key out := by
  induction out with
  | nil => exact .nil
  | cons x rest ih =>
    obtain ⟨hx, hrest⟩ := List.pairwise_cons.1 h
    refine List.pairwise_cons.2 ⟨fun r hr => ?_, ih hrest hne.tail⟩
    cases rest with
    | nil => simp at hr
    | cons y rest =>
      have hxy : Value.compareLists (x.keyAt key) (y.keyAt key) = .lt := by
        cases hc : Value.compareLists (x.keyAt key) (y.keyAt key) with
        | lt => rfl
        | gt => exact absurd hc (hx y (by simp))
        | eq => exact absurd (Value.compareLists_eq_iff.1 hc) (List.isChain_cons_cons.1 hne).1
      rcases List.mem_cons.1 hr with rfl | hr
      · exact hxy
      · exact Value.compareLists_lt_of_lt_of_le hxy ((List.pairwise_cons.1 hrest).1 r hr)

/-- The first records of runs strictly ascend, if the key tells records apart. -/
theorem ascends_firstOfRuns {key : List Nat} {position : Nat} {out : List Record}
    (hkey : ∀ r ∈ out, ∀ s ∈ out, r.keyAt key = s.keyAt key → r = s) (hclimbs : Climbs key out) :
    Ascends key (firstOfRuns position out) := by
  have hsub : (firstOfRuns position out).Sublist out := List.destutter_sublist _ out
  have hruns : (firstOfRuns position out).IsChain fun a b => a.get position ≠ b.get position :=
    List.isChain_destutter _ out
  refine Climbs.ascends (hclimbs.sublist hsub) (hruns.imp_of_mem_imp fun a b ha hb hget hkeys => ?_)
  rw [hkey a (hsub.subset ha) b (hsub.subset hb) hkeys] at hget
  exact hget rfl

/-- Of a field that tells records apart, the runs are those of one record, so none is lost. -/
theorem mem_firstOfRuns {position : Nat} {out : List Record}
    (hinj : ∀ r ∈ out, ∀ s ∈ out, r.get position = s.get position → r = s) (r : Record) :
    r ∈ firstOfRuns position out ↔ r ∈ out := by
  cases out with
  | nil => rfl
  | cons p out =>
    induction out generalizing p with
    | nil => rfl
    | cons x rest ih =>
      by_cases hx : p.get position = x.get position
      · obtain rfl := hinj p (by simp) x (by simp) hx
        rw [firstOfRuns_of_eq rfl, ih p fun r hr s hs =>
          hinj r (List.mem_cons_of_mem _ hr) s (List.mem_cons_of_mem _ hs)]
        simp
      · rw [firstOfRuns_of_ne hx, List.mem_cons, List.mem_cons, ih x fun r hr s hs =>
          hinj r (List.mem_cons_of_mem _ hr) s (List.mem_cons_of_mem _ hs)]

/-- Records that strictly ascend on a key are distinct. -/
theorem Ascends.nodup {key : List Nat} {out : List Record} (h : Ascends key out) : out.Nodup :=
  h.imp fun hab heq => by
    rw [heq, Value.compareLists_self] at hab
    cases hab

theorem Ascends.climbs {key : List Nat} {out : List Record} (h : Ascends key out) :
    Climbs key out :=
  h.imp fun hab => by
    rw [hab]
    simp

/-- **A merge answers the disjunction of its children's filters,** in the order of the key. -/
theorem answers_merge {children : List Part}
    (h : ∀ c ∈ children, Answers v t rows id c.1 c.2.1 c.2.2) {position : Nat}
    (hinj : ∀ r ∈ rows, ∀ s ∈ rows, r.get position = s.get position → r = s) {key : List Nat}
    (hkey : ∀ r ∈ rows, ∀ s ∈ rows, r.keyAt key = s.keyAt key → r = s)
    (hasc : ∀ c ∈ children, Ascends key c.2.2) :
    ∃ out, Answers v t rows id
      (.merge (children.map (·.1)) key (some { position, adjacent := true }) []
        (List.range (children.map (·.1)).length) none)
      (.any (children.map (·.2.1))) out ∧ Ascends key out := by
  have hclimbs : ∀ p ∈ children.map fun c => (c.1, c.2.2), Climbs key p.2 := by
    intro p hp
    obtain ⟨c, hc, rfl⟩ := List.mem_map.1 hp
    exact (hasc c hc).climbs
  obtain ⟨merged, hperm, hclimb, -, hdrains⟩ := exists_merge (drains_of_answers h) hclimbs
  -- a merge loses nothing, and dropping repeated records keeps one of each
  have hmem : ∀ r, r ∈ merged ↔ r ∈ children.flatMap (·.2.2) := fun r => by
    rw [hperm.mem_iff, List.flatMap_map]
  have hrows : ∀ r ∈ merged, r ∈ rows := fun r hr => ((mem_parts h r).1 ((hmem r).1 hr)).1
  have hasc' : Ascends key (firstOfRuns position merged) :=
    ascends_firstOfRuns (fun r hr s hs => hkey r (hrows r hr) s (hrows s hs)) hclimb
  refine ⟨_, ⟨?_, hasc'.nodup, fun r => ?_⟩, hasc'⟩
  · have hgo := hdrains (some { position, adjacent := true })
    rw [List.map_map, keep_adjacent_eq] at hgo
    rw [List.map_id]
    exact hgo
  · rw [mem_firstOfRuns fun r hr s hs => hinj r (hrows r hr) s (hrows s hs), hmem, mem_parts h]

/-! ## Joins -/

/-- **A join answers the conjunction of its children's filters,** in the order of the key. -/
theorem answers_join {children : List Part} (hne : children ≠ [])
    (h : ∀ c ∈ children, Answers v t rows id c.1 c.2.1 c.2.2) {key : List Nat}
    (hkey : ∀ r ∈ rows, ∀ s ∈ rows, r.keyAt key = s.keyAt key → r = s)
    (hasc : ∀ c ∈ children, Ascends key c.2.2) :
    ∃ out, Answers v t rows id
      (.join (children.map (·.1)) key ((children.map (·.1)).map fun _ => none))
      (.all (children.map (·.2.1))) out ∧ Ascends key out := by
  have hinc : ∀ p ∈ children.map fun c => (c.1, c.2.2), p.2.Pairwise fun a b =>
      Value.compareLists (a.keyAt key) (b.keyAt key) = .lt := fun p hp => by
    obtain ⟨c, hc, rfl⟩ := List.mem_map.1 hp
    exact hasc c hc
  have hdrains := drains_join (drains_of_answers h) (by simpa using hne) hinc
  rw [List.map_map, List.map_map] at hdrains
  obtain ⟨first, rest, rfl⟩ : ∃ first rest, children = first :: rest :=
    List.exists_cons_of_ne_nil hne
  have hfirst := h first (by simp)
  have hsub : (shared key ((first :: rest).map (·.2.2))).Sublist first.2.2 := List.filter_sublist
  refine ⟨_, ⟨by rw [List.map_id]; exact hdrains, hfirst.nodup.sublist hsub, fun r => ?_⟩,
    (hasc first (by simp)).sublist hsub⟩
  have hshared : r ∈ shared key ((first :: rest).map (·.2.2)) ↔
      r ∈ first.2.2 ∧ ∀ out ∈ (first :: rest).map (·.2.2), ∃ s ∈ out, s.keyAt key = r.keyAt key :=
    mem_shared
  rw [hfirst.mem] at hshared
  refine hshared.trans ?_
  rw [Filter.holds_all, List.all_map, List.all_eq_true]
  -- the key tells the records apart, so one that another child gives under the same key is the same
  constructor
  · rintro ⟨⟨hrow, -⟩, hall⟩
    refine ⟨hrow, fun c hc => ?_⟩
    obtain ⟨s, hs, hsk⟩ := hall c.2.2 (List.mem_map_of_mem hc)
    obtain ⟨hsrow, hsholds⟩ := ((h c hc).mem s).1 hs
    obtain rfl := hkey s hsrow r hrow hsk
    exact hsholds
  · rintro ⟨hrow, hall⟩
    refine ⟨⟨hrow, hall first (by simp)⟩, fun out hout => ?_⟩
    obtain ⟨c, hc, rfl⟩ := List.mem_map.1 hout
    exact ⟨r, ((h c hc).mem r).2 ⟨hrow, hall c hc⟩, rfl⟩

/-! ## Look-ups of values -/

/-- The rows that a look-up of a value finds. -/
def found (t : RecordType) (rows : List Record) (i : Index) (value : Value) : List Record :=
  (i.sorted t rows).filter fun r => KeyRange.contains { equal := [value] } (i.keyOf t r)

/-- A key is in the range of a value if the leading field has this value. -/
theorem contains_keyOf {i : Index} {field : String} (hlead : i.leadingField? = some field)
    (value : Value) (r : Record) :
    KeyRange.contains { equal := [value] } (i.keyOf t r) = (t.valueOf r field == value) := by
  obtain ⟨rest, hkey⟩ := List.head?_eq_some_iff.1 hlead
  rw [Index.keyOf, hkey, List.map_cons, KeyRange.contains_cons, KeyRange.contains_everything,
    Bool.and_true, Bool.eq_iff_iff, beq_iff_eq, beq_iff_eq, eq_comm]

theorem mem_found {i : Index} {field : String} (hlead : i.leadingField? = some field)
    {value : Value} {r : Record} :
    r ∈ found t rows i value ↔ r ∈ rows ∧ t.valueOf r field = value := by
  rw [found, List.mem_filter, (i.sorted_perm t rows).mem_iff, contains_keyOf hlead, beq_iff_eq]

/-- What is found for ascending values, one after the other, ascends by its entries. -/
theorem found_ascending (h : v.Serves t rows) {i : Index} {field : String}
    (hlead : i.leadingField? = some field) {values : List Value}
    (hvalues : values.Pairwise fun a b => a.compare b = .lt) :
    (values.flatMap (found t rows i)).Pairwise fun a b =>
      (i.entryOf t a).compare (i.entryOf t b) = .lt := by
  obtain ⟨rest, hkey⟩ := List.head?_eq_some_iff.1 hlead
  refine List.pairwise_flatMap.2 ⟨fun value _ => ?_, ?_⟩
  · exact (i.sorted_ascending t h.keys_ne).filter _
  · refine hvalues.imp fun {x y} hxy a ha b hb => ?_
    rw [Index.compare_entryOf, hkey, RecordType.compareBy_cons, ((mem_found hlead).1 ha).2,
      ((mem_found hlead).1 hb).2, hxy]
    rfl

/-- Values that ascend are distinct. -/
theorem nodup_of_ascending {values : List Value}
    (hvalues : values.Pairwise fun a b => a.compare b = .lt) : values.Nodup :=
  hvalues.imp fun hab heq => by
    rw [heq, Value.compare_self] at hab
    cases hab

/-- What is found for distinct values is distinct: a row has one value in the leading field. -/
theorem found_nodup (h : v.Serves t rows) {i : Index} {field : String}
    (hlead : i.leadingField? = some field) {values : List Value} (hvalues : values.Nodup) :
    (values.flatMap (found t rows i)).Nodup := by
  refine List.pairwise_flatMap.2 ⟨fun value _ => ?_, hvalues.imp fun {x y} hxy a ha b hb heq => ?_⟩
  · exact ((i.sorted_perm t rows).nodup_iff.2 h.nodup).filter _
  · have hx := ((mem_found hlead).1 ha).2
    have hy := ((mem_found hlead).1 hb).2
    exact hxy (by rw [← hx, heq, hy])

/-- **Look-ups find the rows of each value in turn.** -/
theorem drains_lookups (h : v.Serves t rows) {i : Index}
    (hi : i ∈ v.catalog.plannableIndexes t.name) (values : List Value) (batchSize : Nat)
    (consistency : Consistency) :
    Drains v (.inJoin i values batchSize consistency 0 []) (values.flatMap (found t rows i)) := by
  have hof := Catalog.recordType_of_mem_indexesOf (Catalog.mem_plannableIndexes.1 hi).1
  have hlookup : ∀ value ∈ values, Drains v (lookup i consistency value) (found t rows i value) :=
    fun value _ => by
      have hdrains := drains_indexScan h hof false
        (fun r hr => (i.sorted_perm t rows).mem_iff.1 (List.mem_filter.1 hr).1)
        (openScan_keys_gives h hi { equal := [value] } consistency)
      rwa [show imageOf t i false = id from rfl, List.map_id] at hdrains
  exact drains_inJoin hlookup
    (List.forall_mem_nil fun p : CursorNode × List Record => Drains v p.1 p.2)

/-- **Look-ups of distinct values answer the membership in their list.** -/
theorem answers_inJoin (h : v.Serves t rows) {i : Index}
    (hi : i ∈ v.catalog.plannableIndexes t.name) {field : String}
    (hlead : i.leadingField? = some field) {values : List Value} (hvalues : values.Nodup)
    (batchSize : Nat) (consistency : Consistency) :
    Answers v t rows id (.inJoin i values batchSize consistency 0 []) (.oneOf field values)
      (values.flatMap (found t rows i)) where
  drains := by
    rw [List.map_id]
    exact drains_lookups h hi values batchSize consistency
  nodup := found_nodup h hlead hvalues
  mem r := by
    rw [List.mem_flatMap, Filter.holds_oneOf, List.contains_iff_mem]
    constructor
    · rintro ⟨value, hvalue, hr⟩
      obtain ⟨hrow, rfl⟩ := (mem_found hlead).1 hr
      exact ⟨hrow, hvalue⟩
    · rintro ⟨hrow, hvalue⟩
      exact ⟨_, hvalue, (mem_found hlead).2 ⟨hrow, rfl⟩⟩

end CursorNode

end RecordLayer
