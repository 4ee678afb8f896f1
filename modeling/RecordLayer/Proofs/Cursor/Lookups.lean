import RecordLayer.Proofs.Plan.Execution
import RecordLayer.Proofs.Store.Representation

/-!
# Look-ups in batches

Look-ups walk the list of their values in batches: the cursor stands at a place of the list, and the
scans of the values before it are drained one after the other. Batches are a matter of how many
scans are open at a time only. Whatever their size, each value gives the records with it in the
leading field of the index, in the order of the index.

The place moves by additions that nothing guards. Behind the first batch the place is at
least the size of a batch, unless the list has ended; so the sum of both is below twice the
length of the list.
-/

namespace RecordLayer

open Reading

namespace CursorNode

/-- Look-ups that have come to a place of their list: to its start, to its end, or at least one
whole batch into it. -/
def LooksUp (index : Index) (values : List Value) (batchSize : Nat) (consistency : Consistency)
    (node : CursorNode) : Prop :=
  ∃ next batch, node = .inJoin index values batchSize consistency next batch ∧
    (next = 0 ∨ next = values.length ∨ max 1 batchSize ≤ next)

variable {v : StoreView} {index : Index} {values : List Value} {batchSize : Nat}
  {consistency : Consistency}

theorem LooksUp.step (node : CursorNode) (h : LooksUp index values batchSize consistency node) :
    (node.step v).Ensures fun p => ∀ next, p.next? = some next →
      LooksUp index values batchSize consistency next := by
  obtain ⟨next, batch, rfl, hplace⟩ := h
  rw [CursorNode.step]
  refine ensures_then fun p => ?_
  cases p with
  | emit r batch =>
    refine ensures_pure fun node hnode => ?_
    obtain rfl := Option.some.inj hnode
    exact ⟨next, batch, rfl, hplace⟩
  | busy batch =>
    refine ensures_pure fun node hnode => ?_
    obtain rfl := Option.some.inj hnode
    exact ⟨next, batch, rfl, hplace⟩
  | done =>
    dsimp only
    split
    · refine ensures_pure fun node hnode => ?_
      cases hnode
    · -- the place moves by a whole batch, or to the end of the list
      refine ensures_pure fun node hnode => ?_
      obtain rfl := Option.some.inj hnode
      refine ⟨_, _, rfl, ?_⟩
      omega

/-- **The place in the list never overflows.** Say that sizes are numbers below `2 * half`. A list
in memory has at most `half` values, which is the limit for its bytes. Then the place where the next
batch ends, before it is cut off at the end of the list, is such a number. -/
theorem LooksUp.next_add_lt {node : CursorNode}
    (h : LooksUp index values batchSize consistency node) {half : Nat}
    (hbatch : max 1 batchSize < 2 * half) (hlength : values.length ≤ half) :
    ∃ next batch, node = .inJoin index values batchSize consistency next batch ∧
      (next < values.length → next + max 1 batchSize < 2 * half) := by
  obtain ⟨next, batch, rfl, hplace⟩ := h
  refine ⟨next, batch, rfl, fun hnext => ?_⟩
  rcases hplace with rfl | rfl | hle
  · omega
  · exact absurd hnext (Nat.lt_irrefl _)
  · -- one batch lies behind the place, so both summands are within the list
    omega

end CursorNode

namespace Plan

open CursorNode

/-- **Look-ups do not depend on their batches.** Over whatever can be seen of a store, the records
with one value in the leading field of an index are found in the order of the index, and look-ups
give what each of their values finds, one after the other, a repeated value repeatedly. This holds
for every size of a batch, and in no state does the place in the list overflow. -/
theorem inJoin_batches {catalog : Catalog} (hc : catalog.Registered) {v : StoreView}
    (hv : v.Reachable catalog) {t : RecordType} (ht : catalog.recordType? t.name = some t)
    {i : Index} (hi : i ∈ catalog.plannableIndexes t.name) {field : String}
    (hlead : i.leadingField? = some field) {consistency : Consistency} {requestId : String}
    {c : ExecutionContext}
    (hcreate : ExecutionContext.create catalog t.name consistency requestId = .ok c) :
    ∃ found : Value → List Record,
      (∀ value, (found value).Perm
          ((v.recordsOf t.name).filter fun r => t.valueOf r field == value) ∧
        (found value).Pairwise fun a b => (i.entryOf t a).compare (i.entryOf t b) = .lt) ∧
      ∀ values batchSize, 1 ≤ batchSize →
        (inJoin field values i batchSize).Yields c v (values.flatMap found) ∧
        ∃ start, c.build (inJoin field values i batchSize) = .ok start ∧
          ∀ node, Comes v start node → ∀ half, batchSize < 2 * half → values.length ≤ half →
            ∃ next batch, node = .inJoin i values batchSize c.consistency next batch ∧
              (next < values.length → next + batchSize < 2 * half) := by
  have hserves := hv.serves hc.sound ht
  have hcatalog := hv.catalog_eq hc.sound
  have ho := ExecutionContext.over_of_create hcatalog ht hcreate
  rw [← hcatalog] at hi
  have hsorted := i.sorted_ascending t hserves.keys_ne
  refine ⟨CursorNode.found t (v.recordsOf t.name) i, fun value => ⟨?_, hsorted.filter _⟩,
    fun values batchSize hbatch => ?_⟩
  · refine ((i.sorted_perm t _).filter _).trans (List.Perm.of_eq ?_)
    exact List.filter_congr fun r _ => contains_keyOf hlead value r
  · have hbuild := build_inJoin ho values hi hlead (Nat.ne_of_gt hbatch)
    have hdrains := drains_lookups hserves hi values batchSize c.consistency
    refine ⟨yields_of_drains hbuild hdrains, _, hbuild, fun node hcomes half hsize hlength => ?_⟩
    -- the place in the list and the open batch are an invariant of the steps
    have hplace := hcomes.keeps LooksUp.step ⟨0, [], rfl, .inl rfl⟩
    have hmax : max 1 batchSize = batchSize := Nat.max_eq_right hbatch
    have hsum := hplace.next_add_lt (hmax.symm ▸ hsize) hlength
    rwa [hmax] at hsum

end Plan

/-! ## A value that repeats -/

open Plan Sample in
/-- One item has the first value, none has the second one, and the first one comes back. -/
theorem Plan.inJoin_batches_items : Catalog.Registered ranked ∧ restocked.Reachable ranked ∧
    ranked.recordType? items.name = some items ∧ byPair ∈ ranked.plannableIndexes items.name ∧
    byPair.leadingField? = some "size" ∧
    ∃ c, ExecutionContext.create ranked items.name .serializable "" = .ok c ∧
      ∀ batchSize, 1 ≤ batchSize →
        (inJoin "size" [.int 9, .int 5, .int 9] byPair batchSize).Yields c restocked
          [⟨[.int 3, .int 9]⟩, ⟨[.int 3, .int 9]⟩] := by
  have hi : byPair ∈ ranked.plannableIndexes items.name := by decide +kernel
  obtain ⟨c, hcreate⟩ : ∃ c, ExecutionContext.create ranked items.name .serializable "" = .ok c :=
    ⟨_, rfl⟩
  obtain ⟨found, hfound, hbatches⟩ := inJoin_batches ranked_registered restocked_reachable
    (t := items) rfl hi rfl hcreate
  have hnine : found (.int 9) = [⟨[.int 3, .int 9]⟩] := by
    refine List.perm_singleton.1 ((hfound _).1.trans (List.Perm.of_eq ?_))
    decide +kernel
  have hfive : found (.int 5) = [] := by
    refine List.perm_nil.1 ((hfound _).1.trans (List.Perm.of_eq ?_))
    decide +kernel
  refine ⟨ranked_registered, restocked_reachable, rfl, hi, rfl, c, hcreate,
    fun batchSize hbatch => ?_⟩
  have hyields := (hbatches [.int 9, .int 5, .int 9] batchSize hbatch).1
  rw [List.flatMap_cons, List.flatMap_cons, List.flatMap_cons, hnine, hfive] at hyields
  exact hyields

end RecordLayer
