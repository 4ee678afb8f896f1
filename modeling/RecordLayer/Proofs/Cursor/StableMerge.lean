import Mathlib.Data.List.Destutter
import RecordLayer.Proofs.Cursor.Merge
import RecordLayer.Proofs.Store.Representation

/-!
# Merges are stable

The records of a merge come in the order of its key, and records with one key come child by child,
those of one child as the child gives them. Put differently: for each key, the merge has the records
with that key in the order in which they stand when the children's records are written one after the
other. Together with the order of the keys, this leaves one list only.

* The tie-break between heads is behind it. The head that goes out is before every other one, by key
  and then by child. So an earlier child cannot have a record with its key left: its own head would
  have had to go out first.
* Leaving out repetitions keeps the first record of each value. A merge that compares with the
  record given last removes the same records wherever records with one value stand next to each
  other. They do if a value decides the key and the key ends in the value, since what stands between
  two records with one value then has their key, and so their value.
-/

namespace RecordLayer

open Reading

namespace CursorNode

/-- The records do not descend on a key. -/
def Climbs (key : List Nat) (out : List Record) : Prop :=
  out.Pairwise fun a b => Value.compareLists (a.keyAt key) (b.keyAt key) ≠ .gt

/-! ## One merge of the streams -/

/-- Every stream is that of its child and does not descend. -/
structure Streams (f : Nat → List MergeHead) : Prop where
  child : ∀ i, ∀ x ∈ f i, x.child = i
  sorted : ∀ i, (f i).Pairwise fun a b => Value.compareLists a.key b.key ≠ .gt

variable {f : Nat → List MergeHead} {i : Nat} {head : MergeHead} {rest : List MergeHead}

theorem Streams.advance (h : Streams f) (hi : f i = head :: rest) :
    Streams (advance f i rest) where
  child j x hx := by
    by_cases hji : j = i
    · rw [hji, advance_self] at hx
      rw [hji]
      exact h.child i x (by rw [hi]; exact List.mem_cons_of_mem _ hx)
    · rw [advance_of_ne f rest hji] at hx
      exact h.child j x hx
  sorted j := by
    by_cases hji : j = i
    · have hsorted := h.sorted i
      rw [hi] at hsorted
      rw [hji, advance_self]
      exact hsorted.tail
    · rw [advance_of_ne f rest hji]
      exact h.sorted j

theorem eq_of_le_of_le {as bs : List Value} (h : Value.compareLists as bs ≠ .gt)
    (h' : Value.compareLists bs as ≠ .gt) : as = bs := by
  rw [Value.compareLists_swap] at h'
  cases hc : Value.compareLists as bs with
  | eq => exact Value.compareLists_eq_iff.1 hc
  | lt => simp [hc] at h'
  | gt => exact absurd hc h

/-- **No earlier stream has the key of the head that goes out.** -/
theorem Streams.key_ne_of_least (h : Streams f) (hi : f i = head :: rest)
    (hleast : ∀ j other tail, f j = other :: tail → head.compare other ≠ .gt) {j : Nat}
    (hj : j < i) {x : MergeHead} (hx : x ∈ f j) : x.key ≠ head.key := by
  intro hkey
  cases hfj : f j with
  | nil => simp [hfj] at hx
  | cons other tail =>
    have hbefore := hleast j other tail hfj
    have hsorted := h.sorted j
    rw [hfj] at hx hsorted
    have hle : Value.compareLists other.key head.key ≠ .gt := by
      rw [← hkey]
      rcases List.mem_cons.1 hx with rfl | hx
      · simp
      · exact (List.pairwise_cons.1 hsorted).1 x hx
    -- the first head of that stream has the same key, and its child comes first
    have hsame : head.key = other.key := eq_of_le_of_le (MergeHead.key_le hbefore) hle
    have hhead : head.child = i := h.child i head (by simp [hi])
    have hother : other.child = j := h.child j other (by simp [hfj])
    refine hbefore ?_
    rw [MergeHead.compare, hsame, Value.compareLists_self, hhead, hother]
    exact Nat.compare_eq_gt.2 hj

/-- **A merge has the elements with one key stream by stream,** those of one stream in its order. -/
theorem Merges.filter_key {out : List MergeHead} (h : Merges f out) (hf : Streams f)
    {places : List Nat} (hplaces : places.Pairwise (· < ·)) (hall : ∀ i, f i ≠ [] → i ∈ places)
    (k : List Value) :
    out.filter (·.key == k) = (places.flatMap f).filter (·.key == k) := by
  rw [List.filter_flatMap]
  induction h with
  | @nil f hnone => simp [hnone]
  | @cons f i head rest out hi hleast h ih =>
    have hih := ih (hf.advance hi) fun j hj => hall j fun hnil => hj <| by
      by_cases hji : j = i
      · rw [hji, hi] at hnil
        cases hnil
      · rwa [advance_of_ne f rest hji]
    obtain ⟨before, after, rfl⟩ := List.append_of_mem (hall i (by simp [hi]))
    obtain ⟨-, hafter, hbefore⟩ := List.pairwise_append.1 hplaces
    -- advancing one stream leaves those before and behind it as they are
    have hothers : ∀ {js : List Nat}, (∀ j ∈ js, j ≠ i) →
        js.flatMap (fun j => (advance f i rest j).filter (·.key == k)) =
          js.flatMap fun j => (f j).filter (·.key == k) := by
      intro js hjs
      simp only [List.flatMap]
      congr 1
      refine List.map_congr_left fun j hj => ?_
      rw [advance_of_ne f rest (hjs j hj)]
    have hlow := hothers fun j hj => Nat.ne_of_lt (hbefore j hj i (by simp))
    have hhigh := hothers fun j hj => Nat.ne_of_gt ((List.pairwise_cons.1 hafter).1 j hj)
    rw [List.flatMap_append, List.flatMap_cons, hlow, hhigh, advance_self] at hih
    rw [List.flatMap_append, List.flatMap_cons, hi]
    by_cases hk : head.key = k
    · have hnone : before.flatMap (fun j => (f j).filter (·.key == k)) = [] := by
        rw [List.flatMap_eq_nil_iff]
        intro j hj
        refine List.filter_eq_nil_iff.2 fun x hx => ?_
        have hne := hf.key_ne_of_least hi hleast (hbefore j hj i (by simp)) hx
        simpa [← hk] using hne
      rw [hnone, List.nil_append] at hih ⊢
      rw [List.filter_cons_of_pos (by simp [hk]), List.filter_cons_of_pos (by simp [hk]), hih]
      rfl
    · rw [List.filter_cons_of_neg (by simp [hk]), List.filter_cons_of_neg (by simp [hk]), hih]

/-- Streams of children have one merge: of two heads of different children one is
before the other. -/
theorem Merges.unique {out out' : List MergeHead} (h : Merges f out) (hf : Streams f)
    (h' : Merges f out') : out = out' := by
  induction h generalizing out' with
  | nil hnone =>
    cases h' with
    | nil => rfl
    | cons hi => simp [hnone] at hi
  | @cons f i head rest out hi hleast h ih =>
    cases h' with
    | nil hnone => simp [hnone] at hi
    | @cons _ i' head' rest' out' hi' hleast' h' =>
      -- each of the two heads is not after the other, so they are of one child
      have hchild : i = i' := by
        have hle := hleast i' head' rest' hi'
        have hge := hleast' i head rest hi
        have hkeys := eq_of_le_of_le (MergeHead.key_le hle) (MergeHead.key_le hge)
        rw [MergeHead.compare, hkeys, Value.compareLists_self, hf.child i head (by simp [hi]),
          hf.child i' head' (by simp [hi'])] at hle
        rw [MergeHead.compare, hkeys, Value.compareLists_self, hf.child i head (by simp [hi]),
          hf.child i' head' (by simp [hi'])] at hge
        have hle : compare i i' ≠ .gt := hle
        have hge : compare i' i ≠ .gt := hge
        rw [ne_eq, Nat.compare_eq_gt] at hle hge
        omega
      subst hchild
      obtain ⟨rfl, rfl⟩ := List.cons.inj (hi.symm.trans hi')
      rw [ih (hf.advance hi) h']

/-! ## Leaving out repetitions -/

/-- The first record of each value at a position. -/
def firstOfEach (position : Nat) (out : List Record) : List Record :=
  out.eraseDupsBy fun a b => a.get position == b.get position

/-- The records whose value at a position differs from that of the record kept before. -/
def firstOfRuns (position : Nat) (out : List Record) : List Record :=
  out.destutter fun a b => a.get position ≠ b.get position

theorem firstOfEach_cons (position : Nat) (x : Record) (rest : List Record) :
    firstOfEach position (x :: rest) =
      x :: firstOfEach position (rest.filter fun r => r.get position ≠ x.get position) := by
  rw [firstOfEach, List.eraseDupsBy_cons, firstOfEach]
  simp only [beq_eq_false_iff_ne]

/-- A record with the value of the record before it belongs to that run. -/
theorem firstOfRuns_of_eq {position : Nat} {p x : Record} (h : p.get position = x.get position)
    (rest : List Record) :
    firstOfRuns position (p :: x :: rest) = firstOfRuns position (p :: rest) := by
  rw [firstOfRuns, List.destutter, List.destutter'_cons_neg rest (by simpa using h)]
  rfl

/-- A record with another value begins the next run. -/
theorem firstOfRuns_of_ne {position : Nat} {p x : Record} (h : p.get position ≠ x.get position)
    (rest : List Record) :
    firstOfRuns position (p :: x :: rest) = p :: firstOfRuns position (x :: rest) := by
  rw [firstOfRuns, List.destutter, List.destutter'_cons_pos rest h]
  rfl

theorem keep_none (out : List Record) : keep none out = out := by
  induction out with
  | nil => rfl
  | cons r rest ih => exact congrArg (r :: ·) ih

/-- Remembering all values keeps the first record of each value that is not remembered yet. -/
theorem keep_seen_eq (position : Nat) (last : Option Value) (out : List Record) :
    ∀ seen : List Value, keep (some ⟨position, false, last, seen⟩) out =
      firstOfEach position (out.filter fun r => !seen.contains (r.get position)) := by
  induction out with
  | nil => exact fun _ => rfl
  | cons x rest ih =>
    intro seen
    by_cases hx : x.get position ∈ seen
    · rw [List.filter_cons_of_neg (by simpa using hx), ← ih seen]
      simp [keep, Dedup.check?, Dedup.check, hx]
    · have hkeep : keep (some ⟨position, false, last, seen⟩) (x :: rest) =
          x :: keep (some ⟨position, false, last, x.get position :: seen⟩) rest := by
        simp [keep, Dedup.check?, Dedup.check, hx]
      rw [List.filter_cons_of_pos (by simpa using hx), firstOfEach_cons, hkeep, ih,
        List.filter_filter]
      congr 2
      refine List.filter_congr fun r _ => ?_
      simp [Bool.not_or]

theorem keep_all_eq (position : Nat) (out : List Record) :
    keep (some { position, adjacent := false }) out = firstOfEach position out := by
  rw [keep_seen_eq]
  simp

/-- Remembering the last value keeps the first record of each run of one value. -/
theorem keep_last_eq {position : Nat} {last : Record} (seen : List Value) (out : List Record) :
    last :: keep (some ⟨position, true, some (last.get position), seen⟩) out =
      firstOfRuns position (last :: out) := by
  induction out generalizing last with
  | nil => rfl
  | cons x rest ih =>
    by_cases hx : last.get position = x.get position
    · rw [firstOfRuns_of_eq hx, ← ih]
      simp [keep, Dedup.check?, Dedup.check, hx]
    · rw [firstOfRuns_of_ne hx, ← ih]
      simp [keep, Dedup.check?, Dedup.check, hx]

theorem keep_adjacent_eq (position : Nat) (out : List Record) :
    keep (some { position, adjacent := true }) out = firstOfRuns position out := by
  cases out with
  | nil => rfl
  | cons x rest =>
    rw [← keep_last_eq []]
    simp [keep, Dedup.check?, Dedup.check]

/-- A key that ends in a position has the value there as its last component. -/
theorem get_eq_of_keyAt {key : List Nat} {position : Nat} (hlast : key.getLast? = some position)
    {a b : Record} (h : a.keyAt key = b.keyAt key) : a.get position = b.get position := by
  have hends : ∀ r : Record, (r.keyAt key).getLast? = some (r.get position) := fun r => by
    rw [Record.keyAt, List.getLast?_map, hlast]
    rfl
  have hab := hends a
  rw [h, hends b] at hab
  exact (Option.some.inj hab).symm

/-- **Where values decide keys, the runs of a climbing list are its classes.** -/
theorem firstOfRuns_eq {key : List Nat} {position : Nat} (hlast : key.getLast? = some position)
    {out : List Record} (hclimbs : Climbs key out)
    (hdecides : ∀ a ∈ out, ∀ b ∈ out, a.get position = b.get position →
      a.keyAt key = b.keyAt key) :
    firstOfRuns position out = firstOfEach position out := by
  cases out with
  | nil => rfl
  | cons p out =>
    -- along the list, with the record that was kept last in front of it
    induction out generalizing p with
    | nil => rfl
    | cons x rest ih =>
      obtain ⟨hp, hrest⟩ := List.pairwise_cons.1 hclimbs
      have hdecides' : ∀ {q : Record}, q ∈ p :: x :: rest → ∀ a ∈ q :: rest, ∀ b ∈ q :: rest,
          a.get position = b.get position → a.keyAt key = b.keyAt key := by
        intro q hq a ha b hb
        have hmem : ∀ r ∈ q :: rest, r ∈ p :: x :: rest := fun r hr => by
          rcases List.mem_cons.1 hr with rfl | hr
          · exact hq
          · exact List.mem_cons_of_mem _ (List.mem_cons_of_mem _ hr)
        exact hdecides a (hmem a ha) b (hmem b hb)
      by_cases hx : p.get position = x.get position
      · have hskip : Climbs key (p :: rest) := List.pairwise_cons.2
          ⟨fun r hr => hp r (List.mem_cons_of_mem _ hr), (List.pairwise_cons.1 hrest).2⟩
        rw [firstOfRuns_of_eq hx, ih p hskip (hdecides' (by simp)), firstOfEach_cons,
          firstOfEach_cons, List.filter_cons_of_neg (by simp [hx])]
      · -- what comes behind `x` does not go back to the value of `p`
        have hnew : ∀ r ∈ rest, r.get position ≠ p.get position := by
          intro r hr hget
          have hkeys := hdecides r (by simp [hr]) p (by simp) hget
          have hle := (List.pairwise_cons.1 hrest).1 r hr
          rw [hkeys] at hle
          exact hx (get_eq_of_keyAt hlast (eq_of_le_of_le (hp x (by simp)) hle))
        have hrest' : rest.filter (fun r => r.get position ≠ p.get position) = rest :=
          List.filter_eq_self.2 fun r hr => by simpa using hnew r hr
        rw [firstOfRuns_of_ne hx, ih x hrest (hdecides' (by simp)), firstOfEach_cons _ p,
          List.filter_cons_of_pos (by simpa using Ne.symm hx), hrest']

/-! ## What a merge gives -/

variable {v : StoreView} {children : List (CursorNode × List Record)} {key : List Nat}

theorem streams_streamsOf (hclimbs : ∀ p ∈ children, Climbs key p.2) :
    Streams (streamsOf children key) where
  child i x hx := by
    obtain ⟨r, -, rfl⟩ := List.mem_map.1 hx
    rfl
  sorted i := by
    refine List.pairwise_map.2 ?_
    cases hc : children[i]? with
    | none => exact .nil
    | some p => exact hclimbs p (List.mem_of_getElem? hc)

/-- Put one after the other, the streams have the records of the children. -/
theorem flatMap_streamsOf (children : List (CursorNode × List Record)) (key : List Nat) :
    ((List.range children.length).flatMap (streamsOf children key)).map (·.record) =
      children.flatMap (·.2) := by
  have hrecords : ∀ i, (streamsOf children key i).map (·.record) =
      (children[i]?.map (·.2)).getD [] := fun i => by
    rw [streamsOf, List.map_map]
    exact List.map_id'' (fun _ => rfl) _
  rw [List.map_flatMap]
  simp only [hrecords]
  rw [List.flatMap, List.flatMap]
  congr 1
  refine List.ext_getElem (by simp) fun i h₁ h₂ => ?_
  have hi : i < children.length := by simpa using h₂
  simp [hi]

/-- The records with one key, of heads that carry the keys of their records. -/
theorem filter_map_record {out : List MergeHead} (h : ∀ x ∈ out, x.key = x.record.keyAt key)
    (k : List Value) :
    (out.map (·.record)).filter (fun r => r.keyAt key == k) =
      (out.filter (·.key == k)).map (·.record) := by
  rw [List.filter_map]
  refine congrArg _ (List.filter_congr fun x hx => ?_)
  rw [Function.comp_apply, h x hx]

/-- Records are arranged alike if those with one key are, for every key. -/
theorem perm_of_filter_key {as bs : List Record}
    (h : ∀ k, as.filter (fun r => r.keyAt key == k) = bs.filter (fun r => r.keyAt key == k)) :
    as.Perm bs := by
  refine List.perm_iff_count.2 fun r => ?_
  have hcount : ∀ out : List Record,
      (out.filter fun s => s.keyAt key == r.keyAt key).count r = out.count r := fun out =>
    List.count_filter (by simp)
  rw [← hcount as, ← hcount bs, h]

/-- **One list underlies a merge, whatever it leaves out.** It has the children's records, does not
descend on the key, and has the records with one key child by child. -/
theorem exists_merge (h : ∀ p ∈ children, Drains v p.1 p.2)
    (hclimbs : ∀ p ∈ children, Climbs key p.2) :
    ∃ out : List Record, out.Perm (children.flatMap (·.2)) ∧ Climbs key out ∧
      (∀ k, out.filter (fun r => r.keyAt key == k) =
        (children.flatMap (·.2)).filter fun r => r.keyAt key == k) ∧
      ∀ dedup, Drains v (startMerge (children.map (·.1)) key dedup) (keep dedup out) := by
  have hstreams := streams_streamsOf hclimbs
  obtain ⟨heads, hmerges, -⟩ := drains_merge h key none
  have hkeyed : ∀ i, ∀ x ∈ streamsOf children key i, x.key = x.record.keyAt key := by
    intro i x hx
    obtain ⟨r, -, rfl⟩ := List.mem_map.1 hx
    rfl
  have hheads : ∀ x ∈ heads, x.key = x.record.keyAt key := by
    intro x hx
    obtain ⟨i, hi⟩ := hmerges.mem_iff.1 hx
    exact hkeyed i x hi
  -- under one key, the merge keeps the order of the children and the order within each
  have hclass : ∀ k, (heads.map (·.record)).filter (fun r => r.keyAt key == k) =
      (children.flatMap (·.2)).filter fun r => r.keyAt key == k := by
    intro k
    have hplaces : ∀ i, streamsOf children key i ≠ [] → i ∈ List.range children.length := by
      intro i hi
      refine List.mem_range.2 (Nat.lt_of_not_le fun hge => hi ?_)
      simp [streamsOf, hge]
    rw [filter_map_record hheads, hmerges.filter_key hstreams List.pairwise_lt_range hplaces,
      ← filter_map_record fun x hx => ?_, flatMap_streamsOf]
    obtain ⟨i, -, hi⟩ := List.mem_flatMap.1 hx
    exact hkeyed i x hi
  refine ⟨heads.map (·.record), perm_of_filter_key hclass, ?_, hclass, fun dedup => ?_⟩
  · refine List.pairwise_map.2 (List.Pairwise.imp_of_mem (fun {x y} hx hy hxy => ?_)
      (hmerges.sorted hstreams.sorted))
    rwa [← hheads x hx, ← hheads y hy]
  · -- the heads are the same whatever is left out
    obtain ⟨heads', hmerges', hgo⟩ := drains_merge h key dedup
    rwa [hmerges.unique hstreams hmerges']

/-- **A merge is stable.** Over children that do not descend on the key, it gives all their records,
not descending on the key, and records with one key child by child in the order of each child. If it
leaves out repetitions of a value and remembers all values, it gives the first of these records for
each value. If it remembers the last value only, it gives the first record of each run; and these
are the same if the key ends in the value and records with one value have one key. -/
theorem merge_stable (h : ∀ p ∈ children, Drains v p.1 p.2)
    (hclimbs : ∀ p ∈ children, Climbs key p.2) :
    ∃ out : List Record, out.Perm (children.flatMap (·.2)) ∧ Climbs key out ∧
      (∀ k, out.filter (fun r => r.keyAt key == k) =
        (children.flatMap (·.2)).filter fun r => r.keyAt key == k) ∧
      Drains v (startMerge (children.map (·.1)) key none) out ∧
      ∀ position,
        Drains v (startMerge (children.map (·.1)) key (some { position, adjacent := false }))
          (firstOfEach position out) ∧
        Drains v (startMerge (children.map (·.1)) key (some { position, adjacent := true }))
          (firstOfRuns position out) ∧
        (key.getLast? = some position →
          (∀ a ∈ children.flatMap (·.2), ∀ b ∈ children.flatMap (·.2),
            a.get position = b.get position → a.keyAt key = b.keyAt key) →
          firstOfRuns position out = firstOfEach position out) := by
  obtain ⟨out, hperm, hclimb, hclass, hdrains⟩ := exists_merge h hclimbs
  refine ⟨out, hperm, hclimb, hclass, ?_, fun position => ⟨?_, ?_, ?_⟩⟩
  · have hgo := hdrains none
    rwa [keep_none] at hgo
  · rw [← keep_all_eq]
    exact hdrains _
  · rw [← keep_adjacent_eq]
    exact hdrains _
  · -- where the field decides the key, equal values stand in one run
    intro hlast hdecides
    refine firstOfRuns_eq hlast hclimb fun a ha b hb => ?_
    exact hdecides a (hperm.mem_iff.1 ha) b (hperm.mem_iff.1 hb)

end CursorNode

/-! ## Streams of items -/

namespace Sample

open CursorNode

/-- A scan of items that has found these. -/
def itemStream (rows : List Record) : CursorNode × List Record :=
  (.fullScan "items" .serializable (some rows), rows)

theorem drains_itemStream (rows : List Record) :
    Drains restocked (itemStream rows).1 (itemStream rows).2 :=
  drains_openRecords (restocked_reachable.serves ranked_registered.sound (t := items) rfl)
    .serializable rows

/-- Two streams with items in common, by size and number, and one without items. -/
def itemStreams : List (CursorNode × List Record) := [
  itemStream [⟨[.int 1, .int 4]⟩, ⟨[.int 3, .int 9]⟩], itemStream [],
  itemStream [⟨[.int 1, .int 4]⟩, ⟨[.int 1, .int 4]⟩, ⟨[.int 2, .int 9]⟩, ⟨[.int 3, .int 9]⟩]]

theorem drains_itemStreams : ∀ p ∈ itemStreams, Drains restocked p.1 p.2 := by
  simp [itemStreams, drains_itemStream]

-- an item that comes back with another size is the first of a new run
example : firstOfRuns 0 [⟨[.int 1, .int 4]⟩, ⟨[.int 2, .int 4]⟩, ⟨[.int 1, .int 9]⟩] =
    [⟨[.int 1, .int 4]⟩, ⟨[.int 2, .int 4]⟩, ⟨[.int 1, .int 9]⟩] := by decide

theorem merge_stable_items : (∀ p ∈ itemStreams, Drains restocked p.1 p.2) ∧
    (∀ p ∈ itemStreams, Climbs [1, 0] p.2) ∧
    (∀ a ∈ itemStreams.flatMap (·.2), ∀ b ∈ itemStreams.flatMap (·.2),
      a.get 0 = b.get 0 → a.keyAt [1, 0] = b.keyAt [1, 0]) ∧
    ∃ out : List Record, out.Perm (itemStreams.flatMap (·.2)) ∧ Climbs [1, 0] out ∧
      Drains restocked (startMerge (itemStreams.map (·.1)) [1, 0] none) out ∧
      ∀ adjacent, Drains restocked
        (startMerge (itemStreams.map (·.1)) [1, 0] (some { position := 0, adjacent }))
        (firstOfEach 0 out) := by
  have hclimbs : ∀ p ∈ itemStreams, Climbs [1, 0] p.2 := by
    unfold Climbs
    decide
  have hdecides : ∀ a ∈ itemStreams.flatMap (·.2), ∀ b ∈ itemStreams.flatMap (·.2),
      a.get 0 = b.get 0 → a.keyAt [1, 0] = b.keyAt [1, 0] := by decide
  obtain ⟨out, hperm, hclimb, -, hplain, hfirst⟩ := merge_stable drains_itemStreams hclimbs
  obtain ⟨hseen, hruns, hsame⟩ := hfirst 0
  rw [hsame rfl hdecides] at hruns
  refine ⟨drains_itemStreams, hclimbs, hdecides, out, hperm, hclimb, hplain, fun adjacent => ?_⟩
  cases adjacent with
  | true => exact hruns
  | false => exact hseen

end Sample

end RecordLayer
