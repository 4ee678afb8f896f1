import RecordLayer.Proofs.Cursor.Drains

/-!
# Merging children

A merge keeps the next record of each child as a head, gives out the least head and asks its child
for the next one. What it gives out is a merge of the children's streams: at each point the first
element of some stream that is not after the first element of any other.

* `Merges` says that a list is such a merge, of streams numbered by child.
* `Merging` is the invariant of a running merge: a child that is asked next has its stream
  still to come, a child with a head has the stream that begins with it, and every other child
  has come to its end.
* A merge of streams that are sorted by key is sorted by key and has exactly their elements.
-/

namespace RecordLayer

open Reading

/-! ## Heads -/

namespace MergeHead

/-- Heads are ordered as the pairs of their key and their child. -/
theorem compare_eq_lex (a b : MergeHead) :
    a.compare b = compareLex (compareOn Prod.fst) (compareOn Prod.snd) (a.key, a.child)
      (b.key, b.child) := by
  unfold MergeHead.compare
  rw [Value.compareLists_eq]
  rfl

theorem compare_trans {a b c : MergeHead} (hab : a.compare b ≠ .gt) (hbc : b.compare c ≠ .gt) :
    a.compare c ≠ .gt := by
  rw [compare_eq_lex] at *
  exact Ordering.ne_gt_iff_isLE.2 (Std.TransCmp.isLE_trans (Ordering.ne_gt_iff_isLE.1 hab)
    (Ordering.ne_gt_iff_isLE.1 hbc))

theorem compare_swap (a b : MergeHead) : a.compare b = (b.compare a).swap := by
  rw [compare_eq_lex, compare_eq_lex]
  exact Std.OrientedCmp.eq_swap

theorem compare_self (a : MergeHead) : a.compare a = .eq := by
  rw [compare_eq_lex]
  exact Std.ReflCmp.compare_self

theorem key_le {a b : MergeHead} (h : a.compare b ≠ .gt) :
    Value.compareLists a.key b.key ≠ .gt := by
  intro hgt
  unfold MergeHead.compare at h
  rw [hgt] at h
  exact h rfl

theorem insert_perm (h : MergeHead) (heads : List MergeHead) :
    (h.insert heads).Perm (h :: heads) := by
  induction heads with
  | nil => exact .refl _
  | cons g rest ih =>
    unfold insert
    split
    · exact (ih.cons g).trans (.swap _ _ _)
    · exact .refl _

theorem insert_sorted {h : MergeHead} {heads : List MergeHead}
    (hs : heads.Pairwise fun a b => a.compare b ≠ .gt) :
    (h.insert heads).Pairwise fun a b => a.compare b ≠ .gt := by
  induction heads with
  | nil => simp [insert]
  | cons g rest ih =>
    obtain ⟨hg, hrest⟩ := List.pairwise_cons.1 hs
    unfold insert
    by_cases hc : h.compare g = .gt
    · rw [if_pos (by simp [hc])]
      refine List.pairwise_cons.2 ⟨fun x hx => ?_, ih hrest⟩
      rcases List.mem_cons.1 ((insert_perm h rest).mem_iff.1 hx) with rfl | hx
      · rw [compare_swap, hc]
        simp
      · exact hg x hx
    · rw [if_neg (by simpa using hc)]
      refine List.pairwise_cons.2 ⟨fun x hx => ?_, hs⟩
      rcases List.mem_cons.1 hx with rfl | hx
      · exact hc
      · exact compare_trans hc (hg x hx)

end MergeHead

namespace CursorNode

/-! ## Merges of streams -/

/-- The streams with one of them replaced by what is left of it. -/
def advance (f : Nat → List MergeHead) (i : Nat) (rest : List MergeHead) : Nat → List MergeHead :=
  fun j => if j = i then rest else f j

@[simp] theorem advance_self (f : Nat → List MergeHead) (i : Nat) (rest : List MergeHead) :
    advance f i rest i = rest := if_pos rfl

theorem advance_of_ne (f : Nat → List MergeHead) {i j : Nat} (rest : List MergeHead) (h : j ≠ i) :
    advance f i rest j = f j := if_neg h

/-- The list is a merge of numbered streams: always the least first element comes next. -/
inductive Merges : (Nat → List MergeHead) → List MergeHead → Prop
  | nil {f : Nat → List MergeHead} (h : ∀ i, f i = []) : Merges f []
  | cons {f : Nat → List MergeHead} {i : Nat} {head : MergeHead} {rest out : List MergeHead}
    (hi : f i = head :: rest)
    (hleast : ∀ j other tail, f j = other :: tail → head.compare other ≠ .gt)
    (h : Merges (advance f i rest) out) : Merges f (head :: out)

/-- A merge has exactly the elements of the streams. -/
theorem Merges.mem_iff {f : Nat → List MergeHead} {out : List MergeHead} (h : Merges f out)
    {x : MergeHead} : x ∈ out ↔ ∃ i, x ∈ f i := by
  induction h with
  | nil h => simp [h]
  | @cons f i head rest out hi hleast h ih =>
    rw [List.mem_cons, ih]
    constructor
    · rintro (rfl | ⟨j, hj⟩)
      · exact ⟨i, by simp [hi]⟩
      · by_cases hji : j = i
        · rw [hji, advance_self] at hj
          exact ⟨i, by simp [hi, hj]⟩
        · rw [advance_of_ne f rest hji] at hj
          exact ⟨j, hj⟩
    · rintro ⟨j, hj⟩
      by_cases hji : j = i
      · subst hji
        rw [hi] at hj
        rcases List.mem_cons.1 hj with rfl | hj
        · exact .inl rfl
        · exact .inr ⟨j, by simpa using hj⟩
      · exact .inr ⟨j, by rwa [advance_of_ne f rest hji]⟩

/-- A merge of sorted streams is sorted. -/
theorem Merges.sorted {f : Nat → List MergeHead} {out : List MergeHead} (h : Merges f out)
    (hf : ∀ i, (f i).Pairwise fun a b => Value.compareLists a.key b.key ≠ .gt) :
    out.Pairwise fun a b => Value.compareLists a.key b.key ≠ .gt := by
  induction h with
  | nil h => exact .nil
  | @cons f i head rest out hi hleast h ih =>
    have hrest := hf i
    rw [hi, List.pairwise_cons] at hrest
    refine List.pairwise_cons.2 ⟨fun x hx => ?_, ih fun j => ?_⟩
    · -- an element behind the head is of the same child, which is sorted, or of another one, whose
      -- first element is not before the head
      obtain ⟨j, hj⟩ := h.mem_iff.1 hx
      by_cases hji : j = i
      · rw [hji, advance_self] at hj
        exact hrest.1 x hj
      · rw [advance_of_ne f rest hji] at hj
        cases hfj : f j with
        | nil => simp [hfj] at hj
        | cons other tail =>
          have hle := MergeHead.key_le (hleast j other tail hfj)
          have hsorted := hf j
          rw [hfj] at hj hsorted
          rcases List.mem_cons.1 hj with rfl | hj
          · exact hle
          · exact Value.compareLists_trans hle ((List.pairwise_cons.1 hsorted).1 x hj)
    · by_cases hji : j = i
      · rw [hji, advance_self]
        exact hrest.2
      · rw [advance_of_ne f rest hji]
        exact hf j

/-! ## Running merges -/

/-- The head of a record from a child. -/
def headOf (key : List Nat) (i : Nat) (r : Record) : MergeHead := ⟨r.keyAt key, i, r⟩

/-- Where a step of one child leaves the list of children. -/
def placed (children : List CursorNode) (i : Nat) : Pull CursorNode → Pull (List CursorNode)
  | .done => .done
  | .busy next => .busy (children.set i next)
  | .emit r next => .emit r (children.set i next)

/-- Stepping the child at a place is a step of that child. -/
theorem stepAt_eq {v : StoreView} {node : CursorNode} : ∀ {i : Nat} {children : List CursorNode},
    children[i]? = some node →
    stepAt v i children = node.step v >>= fun p => pure (placed children i p)
  | _, [], h => by simp at h
  | 0, child :: rest, h => by
    obtain rfl : child = node := by simpa using h
    rw [stepAt]
    refine congrArg _ (funext fun p => ?_)
    cases p <;> rfl
  | i + 1, child :: rest, h => by
    rw [stepAt, stepAt_eq (show rest[i]? = some node by simpa using h), bind_assoc]
    refine congrArg _ (funext fun p => ?_)
    rw [pure_bind]
    cases p <;> rfl

theorem stepAt_gives {v : StoreView} {node : CursorNode} {p : Pull CursorNode}
    (hp : (node.step v).Gives p) {i : Nat} {children : List CursorNode}
    (h : children[i]? = some node) : (stepAt v i children).Gives (placed children i p) := by
  rw [stepAt_eq h]
  exact gives_bind hp (gives_pure _)

/-- The state of a running merge: the children, their heads, and those to be asked next, with the
stream that each child still has. -/
structure Merging (v : StoreView) (children : List CursorNode) (key : List Nat)
    (heads : List MergeHead) (waiting : List Nat) (f : Nat → List MergeHead) : Prop where
  sorted : heads.Pairwise fun a b => a.compare b ≠ .gt
  /-- A child has one head or is asked for one, never both. -/
  distinct : (heads.map (·.child) ++ waiting).Nodup
  head : ∀ h ∈ heads, ∃ node rest, children[h.child]? = some node ∧ Drains v node rest ∧
    f h.child = h :: rest.map (headOf key h.child)
  asked : ∀ i ∈ waiting, ∃ node rest, children[i]? = some node ∧ Drains v node rest ∧
    f i = rest.map (headOf key i)
  ended : ∀ i, i ∉ heads.map (·.child) → i ∉ waiting → f i = []

namespace Merging

variable {v : StoreView} {children : List CursorNode} {key : List Nat} {heads : List MergeHead}
  {waiting : List Nat} {f : Nat → List MergeHead} {i : Nat}

/-- A child that is asked has no head. -/
theorem child_ne (h : Merging v children key heads (i :: waiting) f) {x : MergeHead}
    (hx : x ∈ heads) : x.child ≠ i := fun heq =>
  (List.nodup_append.1 h.distinct).2.2 _ (List.mem_map_of_mem hx) i (by simp) heq

theorem not_mem_waiting (h : Merging v children key heads (i :: waiting) f) : i ∉ waiting :=
  (List.nodup_cons.1 (List.nodup_append.1 h.distinct).2.1).1

/-- Advancing the child that is asked does not concern the others. -/
theorem getElem?_set (h : Merging v children key heads (i :: waiting) f) (next : CursorNode) :
    (∀ x ∈ heads, (children.set i next)[x.child]? = children[x.child]?) ∧
      ∀ j ∈ waiting, (children.set i next)[j]? = children[j]? := by
  constructor
  · intro x hx
    rw [List.getElem?_set_ne (h.child_ne hx).symm]
  · intro j hj
    have hne : i ≠ j := fun heq => h.not_mem_waiting (heq ▸ hj)
    rw [List.getElem?_set_ne hne]

/-- The child that is asked has come to its end. -/
theorem done (h : Merging v children key heads (i :: waiting) f) (hi : f i = []) :
    Merging v children key heads waiting f where
  sorted := h.sorted
  distinct := (List.perm_middle.nodup_iff.1 h.distinct).of_cons
  head := h.head
  asked j hj := h.asked j (List.mem_cons_of_mem _ hj)
  ended j hhead hj := by
    by_cases hji : j = i
    · rw [hji, hi]
    · exact h.ended j hhead (by simp [hji, hj])

/-- The child that is asked has gone on without a record. -/
theorem busy (h : Merging v children key heads (i :: waiting) f) {node next : CursorNode}
    {rest : List Record} (hi : children[i]? = some node) (hnext : Drains v next rest)
    (hf : f i = rest.map (headOf key i)) :
    Merging v (children.set i next) key heads (i :: waiting) f where
  sorted := h.sorted
  distinct := h.distinct
  head x hx := by
    rw [(h.getElem?_set next).1 x hx]
    exact h.head x hx
  asked j hj := by
    rcases List.mem_cons.1 hj with rfl | hj
    · exact ⟨next, rest, List.getElem?_set_self (List.getElem?_eq_some_iff.1 hi).1, hnext, hf⟩
    · rw [(h.getElem?_set next).2 j hj]
      exact h.asked j (List.mem_cons_of_mem _ hj)
  ended := h.ended

/-- The child that is asked has given a record. -/
theorem emit (h : Merging v children key heads (i :: waiting) f) {node next : CursorNode}
    {r : Record} {rest : List Record} (hi : children[i]? = some node) (hnext : Drains v next rest)
    (hf : f i = (r :: rest).map (headOf key i)) :
    Merging v (children.set i next) key ((headOf key i r).insert heads) waiting f where
  sorted := MergeHead.insert_sorted h.sorted
  distinct := by
    refine (List.Perm.nodup_iff ?_).1 h.distinct
    refine List.perm_middle.trans ?_
    exact (((MergeHead.insert_perm (headOf key i r) heads).map (·.child)).symm).append_right
      waiting
  head x hx := by
    rcases List.mem_cons.1 ((MergeHead.insert_perm _ _).mem_iff.1 hx) with rfl | hx
    · exact ⟨next, rest, List.getElem?_set_self (List.getElem?_eq_some_iff.1 hi).1, hnext, hf⟩
    · rw [(h.getElem?_set next).1 x hx]
      exact h.head x hx
  asked j hj := by
    rw [(h.getElem?_set next).2 j hj]
    exact h.asked j (List.mem_cons_of_mem _ hj)
  ended j hhead hj := by
    have hperm := (MergeHead.insert_perm (headOf key i r) heads).map (·.child)
    rw [hperm.mem_iff, List.map_cons, List.mem_cons, not_or] at hhead
    exact h.ended j hhead.2 (by simp only [List.mem_cons, not_or]; exact ⟨hhead.1, hj⟩)

/-- The least head is taken out, and its child is asked for the next one. -/
theorem take {head : MergeHead} (h : Merging v children key (head :: heads) [] f) :
    ∃ rest, f head.child = head :: rest ∧
      (∀ j other tail, f j = other :: tail → head.compare other ≠ .gt) ∧
      Merging v children key heads [head.child] (advance f head.child rest) := by
  obtain ⟨node, rest, hnode, hdrains, hf⟩ := h.head head (by simp)
  have hsorted := List.pairwise_cons.1 h.sorted
  have hdistinct : head.child ∉ heads.map (·.child) ∧ (heads.map (·.child)).Nodup := by
    have := h.distinct
    rw [List.append_nil, List.map_cons, List.nodup_cons] at this
    exact this
  refine ⟨_, hf, fun j other tail hj => ?_, hsorted.2, ?_, fun x hx => ?_, fun j hj => ?_,
    fun j hhead hj => ?_⟩
  · -- a child without a head has ended, so the least head is the least first element
    by_cases hmem : j ∈ (head :: heads).map (·.child)
    · obtain ⟨x, hx, rfl⟩ := List.mem_map.1 hmem
      obtain ⟨_, _, _, _, hfx⟩ := h.head x hx
      rw [hj] at hfx
      obtain ⟨rfl, -⟩ := List.cons.inj hfx
      rcases List.mem_cons.1 hx with rfl | hx
      · simp [MergeHead.compare_self]
      · exact hsorted.1 other hx
    · rw [h.ended j hmem (by simp)] at hj
      cases hj
  · rw [List.nodup_append]
    refine ⟨hdistinct.2, by simp, fun a ha b hb heq => ?_⟩
    rw [List.mem_singleton.1 hb] at heq
    exact hdistinct.1 (heq ▸ ha)
  · -- the other heads are those of other children, whose streams are the same
    have hne : x.child ≠ head.child := fun heq =>
      hdistinct.1 (heq ▸ List.mem_map_of_mem hx)
    rw [advance_of_ne f _ hne]
    exact h.head x (List.mem_cons_of_mem _ hx)
  · rw [List.mem_singleton.1 hj, advance_self]
    exact ⟨node, rest, hnode, hdrains, rfl⟩
  · have hne : j ≠ head.child := by simpa using hj
    rw [advance_of_ne f _ hne]
    refine h.ended j ?_ (by simp)
    rw [List.map_cons, List.mem_cons, not_or]
    exact ⟨hne, hhead⟩

/-- **Asking a child changes nothing about what is to come.** -/
theorem goes_of_asked (h : Merging v children key heads (i :: waiting) f) (dedup : Option Dedup)
    (held : Option MergeHead) :
    ∃ children' heads' waiting', Merging v children' key heads' waiting' f ∧
      (step v (.merge children key dedup heads (i :: waiting) held)).Gives
        (.busy (.merge children' key dedup heads' waiting' held)) := by
  obtain ⟨node, rest, hi, hdrains, hf⟩ := h.asked i (by simp)
  cases hdrains with
  | done hp =>
    refine ⟨_, _, _, h.done (by simpa using hf), ?_⟩
    unfold step
    exact gives_bind (stepAt_gives hp hi) (gives_pure _)
  | busy hp hnext =>
    refine ⟨_, _, _, h.busy hi hnext hf, ?_⟩
    unfold step
    exact gives_bind (stepAt_gives hp hi) (gives_pure _)
  | emit hp hnext =>
    refine ⟨_, _, _, h.emit hi hnext hf, ?_⟩
    unfold step
    exact gives_bind (stepAt_gives hp hi) (gives_pure _)

end Merging

/-- A merge that holds a head checks its record. -/
theorem step_merge_held (v : StoreView) (children : List CursorNode) (key : List Nat)
    (dedup : Option Dedup) (heads : List MergeHead) (head : MergeHead) :
    (step v (.merge children key dedup heads [] (some head))).Gives
      (if (Dedup.check? dedup head.record).1 then
        .busy (.merge children key (Dedup.check? dedup head.record).2 heads [] none)
      else .emit head.record
        (.merge children key (Dedup.check? dedup head.record).2 heads [] none)) := by
  unfold step
  cases hc : Dedup.check? dedup head.record with
  | mk repeated dedup' => cases repeated <;> simp only [hc] <;> exact gives_pure _

/-- **A running merge gives a merge of what its children still have,** behind the head that it holds
and without the records that are left out. -/
theorem Merging.drains {v : StoreView} {key : List Nat} {children : List CursorNode}
    {dedup : Option Dedup} {heads : List MergeHead} {waiting : List Nat} {held : Option MergeHead}
    {f : Nat → List MergeHead} (h : Merging v children key heads waiting f) :
    ∃ out, Merges f out ∧ Drains v (.merge children key dedup heads waiting held)
      (keep dedup ((held.toList ++ out).map (·.record))) := by
  generalize hnode : CursorNode.merge children key dedup heads waiting held = node
  induction node using step_induction v generalizing children dedup heads waiting held f with
  | step node ih =>
    subst hnode
    cases waiting with
    | cons i waiting =>
      obtain ⟨children', heads', waiting', hnext, hgives⟩ := h.goes_of_asked dedup held
      obtain ⟨out, hout, hgo⟩ := ih _ _ hgives rfl hnext rfl
      exact ⟨out, hout, .busy hgives hgo⟩
    | nil =>
      cases held with
      | some head =>
        -- the head that is held goes out, or it repeats a value and is left out
        have hgives := step_merge_held v children key dedup heads head
        obtain ⟨out, hout, hgo⟩ := ih _ _ hgives (by split <;> rfl) h rfl
        exact ⟨out, hout, drains_of_checked hgives hgo⟩
      | none =>
        cases heads with
        | nil =>
          refine ⟨[], .nil fun i => h.ended i (by simp) (by simp), .done ?_⟩
          unfold step
          exact gives_pure _
        | cons head heads =>
          have hgives : (step v (.merge children key dedup (head :: heads) [] none)).Gives
              (.busy (.merge children key dedup heads [head.child] (some head))) := by
            unfold step
            exact gives_pure _
          obtain ⟨rest, hf, hleast, hnext⟩ := h.take
          obtain ⟨out, hout, hgo⟩ := ih _ _ hgives rfl hnext rfl
          exact ⟨head :: out, .cons hf hleast hout, .busy hgives hgo⟩

/-- A merge of these children that has not started. -/
abbrev startMerge (children : List CursorNode) (key : List Nat) (dedup : Option Dedup) :
    CursorNode :=
  .merge children key dedup [] (List.range children.length) none

/-- The stream of heads of each child. -/
def streamsOf (children : List (CursorNode × List Record)) (key : List Nat) :
    Nat → List MergeHead :=
  fun i => ((children[i]?.map (·.2)).getD []).map (headOf key i)

/-- **A merge that has not started gives a merge of its children's records.** -/
theorem drains_merge {v : StoreView} {children : List (CursorNode × List Record)}
    (h : ∀ p ∈ children, Drains v p.1 p.2) (key : List Nat) (dedup : Option Dedup) :
    ∃ out, Merges (streamsOf children key) out ∧
      Drains v (startMerge (children.map (·.1)) key dedup) (keep dedup (out.map (·.record))) := by
  refine Merging.drains ⟨.nil, ?_, by simp, fun i hi => ?_, fun i _ hi => ?_⟩
  · simpa using List.nodup_range
  · have hlt : i < children.length := by simpa using hi
    refine ⟨children[i].1, children[i].2, by simp [hlt], h _ (List.getElem_mem hlt), ?_⟩
    simp [streamsOf, hlt]
  · have hge : children.length ≤ i := by simpa using hi
    simp [streamsOf, hge]

end CursorNode

end RecordLayer
