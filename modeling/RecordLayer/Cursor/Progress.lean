import RecordLayer.Cursor
import RecordLayer.Store.Reading

/-!
# Progress of cursors

Every step of a node either ends it or lowers the work left to it, so the steps that a pull allows
are enough: a pull gives a record or ends, and a drained cursor has ended.
-/

namespace RecordLayer

/-- What a step leaves has less work than a bound. -/
def Pull.Below {σ : Type} (work : σ → Nat) (bound : Nat) : Pull σ → Prop
  | .emit _ next => work next < bound
  | .busy next => work next < bound
  | .done => True

/-! ## Scans -/

namespace StoreView

theorem length_pullEntries (v : StoreView) (t : RecordType) (index : Index) (range : KeyRange)
    (count : Nat) (scan : EntryScan) : (v.pullEntries t index range count scan).length = count := by
  induction count generalizing scan with
  | zero => rfl
  | succ count ih => rw [pullEntries, List.length_cons, ih]

/-- A scan of an index has no more rows than the index has entries. -/
theorem entriesOf_length_le (v : StoreView) (t : RecordType) (index : Index) (range : KeyRange) :
    (v.entriesOf t index range).length ≤ v.entryCount index := by
  have h := List.length_filterMap_le id (v.pullEntries t index range (v.entryCount index) {})
  rwa [length_pullEntries] at h

theorem scanRecords_ensures (v : StoreView) (recordType : String) (consistency : Consistency) :
    (v.scanRecords recordType consistency).Ensures (· = v.recordsOf recordType) := by
  unfold StoreView.scanRecords
  exact Reading.ensures_then fun _ => Reading.ensures_then fun _ => Reading.ensures_then fun _ =>
    Reading.ensures_then fun _ => Reading.ensures_pure rfl

theorem scanIndex_ensures (v : StoreView) (index : Index) (range : KeyRange)
    (consistency : Consistency) :
    (v.scanIndex index range consistency).Ensures
      (·.length ≤ v.entryCount index) :=
  Reading.ensures_then fun _ => Reading.ensures_then fun _ => Reading.ensures_then fun _ =>
    Reading.ensures_pure (entriesOf_length_le ..)

end StoreView

namespace CursorNode

open Reading

theorem openScan_ensures (v : StoreView) (index : Index) (bounds : ScanBounds)
    (consistency : Consistency) :
    (openScan v index bounds consistency).Ensures
      (∀ rows, · = some rows → rows.length ≤ v.entryCount index) := by
  refine ensures_then fun range => ?_
  cases range with
  | none => exact ensures_pure nofun
  | some range =>
    refine ensures_bind (StoreView.scanIndex_ensures v index range consistency) fun rows hrows => ?_
    exact ensures_pure fun rows' heq => Option.some.inj heq ▸ hrows

theorem stepRecords_below (v : StoreView) (recordType : String) (consistency : Consistency)
    (rows : List Record) :
    (stepRecords v recordType consistency rows).Ensures
      (Pull.Below (work v) (rows.length + 1)) := by
  cases rows with
  | nil => exact ensures_then fun _ => ensures_pure trivial
  | cons r rest => exact ensures_then fun _ => ensures_pure (by simp [Pull.Below, work])

theorem stepEntries_below (v : StoreView) (index : Index) (bounds : ScanBounds) (covering : Bool)
    (consistency : Consistency) (rows : List StoreView.EntryRow) :
    (stepEntries v index bounds covering consistency rows).Ensures
      (Pull.Below (work v) (rows.length + 1)) := by
  cases rows with
  | nil => exact ensures_then fun _ => ensures_pure trivial
  | cons row rest =>
    refine ensures_then fun e => ?_
    dsimp only
    split
    · exact ensures_pure (by simp [Pull.Below, work])
    · refine ensures_then fun found => ?_
      cases found <;> exact ensures_pure (by simp [Pull.Below, work])

/-! ## Keys of a join -/

/-- The least key is the key of a head. -/
theorem exists_mem_of_leastKey {heads : List (List Value × Record)} {least : List Value}
    (h : leastKey heads = some least) : ∃ head ∈ heads, head.1 = least := by
  induction heads generalizing least with
  | nil => simp [leastKey] at h
  | cons head rest ih =>
    simp only [leastKey] at h
    cases hl : leastKey rest with
    | none =>
      rw [hl] at h
      exact ⟨head, by simp, Option.some.inj h⟩
    | some l =>
      rw [hl] at h
      obtain ⟨other, hmem, hkey⟩ := ih hl
      have h := Option.some.inj h
      split at h
      · exact ⟨other, List.mem_cons_of_mem _ hmem, hkey.trans h⟩
      · exact ⟨head, by simp, h⟩

theorem joinHeads_nil : joinHeads [] = (none, []) := rfl

/-- Dropping heads that have a key that occurs leaves fewer of them. -/
theorem count_drop_lt {heads : List (List Value × Record)} {least : List Value}
    (h : ∃ head ∈ heads, head.1 = least) :
    ((heads.map fun head => if head.1 = least then none else some head).filter
      (·.isSome)).length < heads.length := by
  have hle : ∀ hs : List (List Value × Record),
      ((hs.map fun head => if head.1 = least then none else some head).filter
        (·.isSome)).length ≤ hs.length := by
    intro hs
    simpa using List.length_filter_le (·.isSome)
      (hs.map fun head => if head.1 = least then none else some head)
  induction heads with
  | nil => simp at h
  | cons head rest ih =>
    by_cases hkey : head.1 = least
    · simpa [hkey] using Nat.lt_succ_of_le (hle rest)
    · have : ∃ head ∈ rest, head.1 = least := by
        obtain ⟨other, hmem, ho⟩ := h
        rcases List.mem_cons.1 hmem with rfl | hmem
        · exact absurd ho hkey
        · exact ⟨other, hmem, ho⟩
      simpa [hkey] using ih this

/-- Comparing the heads of a join lets go of at least one of them. -/
theorem count_joinHeads_lt (heads : List (List Value × Record)) (h : heads ≠ []) :
    ((joinHeads heads).2.filter (·.isSome)).length < heads.length := by
  cases heads with
  | nil => exact absurd rfl h
  | cons head rest =>
    cases hl : leastKey (head :: rest) with
    | none =>
      simp only [leastKey] at hl
      split at hl <;> simp at hl
    | some least =>
      simp only [joinHeads, hl]
      split
      · have hnone : ((head :: rest).map fun _ =>
            (none : Option (List Value × Record))).filter (·.isSome) = [] :=
          List.filter_eq_nil_iff.2 fun a ha => by
            obtain ⟨_, _, rfl⟩ := List.mem_map.1 ha
            simp
        dsimp only
        rw [hnone]
        simp
      · exact count_drop_lt (exists_mem_of_leastKey hl)

/-! ## Steps -/

theorem work_pos (v : StoreView) (node : CursorNode) : 0 < node.work v := by
  cases node with
  | fullScan recordType consistency rows => cases rows <;> simp [work]
  | indexScan index bounds covering consistency rows => cases rows <;> simp [work]
  | _ => simp [work]

/-- The work of look-ups that have not started. -/
theorem workOfList_lookups (v : StoreView) (index : Index) (consistency : Consistency)
    (values : List Value) :
    workOfList v (values.map fun value =>
        .indexScan index (.keys { equal := [value] }) false consistency none) =
      values.length * (v.entryCount index + 3) := by
  induction values with
  | nil => simp [workOfList]
  | cons value rest ih =>
    simp only [List.map_cons, workOfList, work, ih, List.length_cons, Nat.succ_mul]
    omega

theorem length_insert (h : MergeHead) (heads : List MergeHead) :
    (MergeHead.insert h heads).length = heads.length + 1 := by
  induction heads with
  | nil => rfl
  | cons g rest ih =>
    simp only [MergeHead.insert]
    split <;> simp [ih]

/-- Learning one head adds at most one to those known. -/
theorem count_set_le (heads : List (Option (List Value × Record))) (i : Nat)
    (head : Option (List Value × Record)) :
    ((heads.set i head).filter (·.isSome)).length ≤ (heads.filter (·.isSome)).length + 1 := by
  induction heads generalizing i with
  | nil => simp
  | cons known rest ih =>
    cases i with
    | zero => grind
    | succ i => cases known <;> simpa using ih i

/-! A node that steps by stepping a child lowers its own work with that of the child, so there is
one lemma for each kind of node and the recursion over the tree only puts them together. -/

section Nodes

variable (v : StoreView)

theorem step_fullScan_below (recordType : String) (consistency : Consistency)
    (rows : Option (List Record)) :
    ((fullScan recordType consistency rows).step v).Ensures
      (Pull.Below (work v) ((fullScan recordType consistency rows).work v)) := by
  unfold step
  cases rows with
  | none =>
    refine ensures_bind (v.scanRecords_ensures recordType consistency) fun rows hrows => ?_
    refine (stepRecords_below v recordType consistency rows).mono fun p hp => ?_
    subst hrows
    cases p <;> simp only [Pull.Below, work] at hp ⊢ <;> omega
  | some rows => exact stepRecords_below v recordType consistency rows

theorem step_indexScan_below (index : Index) (bounds : ScanBounds) (covering : Bool)
    (consistency : Consistency) (rows : Option (List StoreView.EntryRow)) :
    ((indexScan index bounds covering consistency rows).step v).Ensures
      (Pull.Below (work v) ((indexScan index bounds covering consistency rows).work v)) := by
  unfold step
  cases rows with
  | none =>
    refine ensures_bind (openScan_ensures v index bounds consistency) fun opened hopened => ?_
    cases opened with
    | none => exact ensures_pure trivial
    | some rows =>
      have hrows := hopened rows rfl
      refine (stepEntries_below v index bounds covering consistency rows).mono fun p hp => ?_
      cases p <;> simp only [Pull.Below, work] at hp ⊢ <;> omega
  | some rows => exact stepEntries_below v index bounds covering consistency rows

theorem step_chain_below {children : List CursorNode} (dedup : Option Dedup)
    (hchild : (stepHead v children).Ensures
      (Pull.Below (workOfList v) (workOfList v children))) :
    ((chain children dedup).step v).Ensures
      (Pull.Below (work v) ((chain children dedup).work v)) := by
  unfold step
  refine ensures_bind hchild fun p hp => ?_
  cases p with
  | done => exact ensures_pure trivial
  | busy next =>
    refine ensures_pure ?_
    simp only [Pull.Below, work] at hp ⊢
    omega
  | emit r next =>
    dsimp only
    split <;>
    · refine ensures_pure ?_
      simp only [Pull.Below, work] at hp ⊢
      omega

/-- A record of a child is worth four steps of a merge: it becomes a head, then the held one, then
it is given, and its child waits in the meantime. -/
theorem step_merge_below {children : List CursorNode} (key : List Nat) (dedup : Option Dedup)
    (heads : List MergeHead) (waiting : List Nat) (held : Option MergeHead)
    (hchild : ∀ i, (stepAt v i children).Ensures
      (Pull.Below (workOfList v) (workOfList v children))) :
    ((merge children key dedup heads waiting held).step v).Ensures
      (Pull.Below (work v) ((merge children key dedup heads waiting held).work v)) := by
  unfold step
  -- a child is asked, or the held head is given, or the least head becomes the held one
  cases waiting with
  | cons i rest =>
    refine ensures_bind (hchild i) fun p hp => ?_
    cases p with
    | done =>
      refine ensures_pure ?_
      simp only [Pull.Below, work, List.length_cons]
      omega
    | busy next =>
      refine ensures_pure ?_
      simp only [Pull.Below, work] at hp ⊢
      omega
    | emit r next =>
      refine ensures_pure ?_
      simp only [Pull.Below, work, List.length_cons, length_insert] at hp ⊢
      omega
  | nil =>
    cases held with
    | some head =>
      dsimp only
      split <;>
      · refine ensures_pure ?_
        simp [Pull.Below, work]
    | none =>
      cases heads with
      | nil => exact ensures_pure trivial
      | cons head rest =>
        refine ensures_pure ?_
        simp [Pull.Below, work]
        omega

/-- Letting go of the heads that were compared lowers the work of a join, whether a record is given
or not. -/
theorem work_joinHeads_lt (children : List CursorNode) (key : List Nat)
    {heads : List (Option (List Value × Record))} (h : heads.filterMap id ≠ []) :
    (join children key (joinHeads (heads.filterMap id)).2).work v <
      (join children key heads).work v := by
  have hcount : (heads.filterMap id).length = (heads.filter (·.isSome)).length := by
    clear h
    induction heads with
    | nil => rfl
    | cons known rest ih => cases known <;> simp_all
  have hless := count_joinHeads_lt _ h
  simp only [work]
  omega

/-- A record of a child is worth two steps of a join: it becomes known, and it is let go again. -/
theorem step_join_below {children : List CursorNode} (key : List Nat)
    (heads : List (Option (List Value × Record)))
    (hchild : ∀ i, (stepAt v i children).Ensures
      (Pull.Below (workOfList v) (workOfList v children))) :
    ((join children key heads).step v).Ensures
      (Pull.Below (work v) ((join children key heads).work v)) := by
  unfold step
  split
  · rename_i i hi
    refine ensures_bind (hchild i) fun p hp => ?_
    cases p with
    | done => exact ensures_pure trivial
    | busy next =>
      refine ensures_pure ?_
      simp only [Pull.Below, work] at hp ⊢
      omega
    | emit r next =>
      refine ensures_pure ?_
      have := count_set_le heads i (some (r.keyAt key, r))
      simp only [Pull.Below, work] at hp ⊢
      omega
  · by_cases hnil : heads.filterMap id = []
    · -- no head at all: the join ends
      rw [hnil, joinHeads_nil]
      exact ensures_pure trivial
    · have hless := work_joinHeads_lt v children key hnil
      split <;> rename_i hjoin
      · rw [hjoin] at hless
        exact ensures_pure hless
      · exact ensures_pure trivial
      · rw [hjoin] at hless
        exact ensures_pure hless

/-- A batch of look-ups has less work than its values count for. -/
theorem step_inJoin_below (index : Index) (values : List Value) (batchSize : Nat)
    (consistency : Consistency) (next : Nat) {batch : List CursorNode}
    (hchild : (stepHead v batch).Ensures (Pull.Below (workOfList v) (workOfList v batch))) :
    ((inJoin index values batchSize consistency next batch).step v).Ensures
      (Pull.Below (work v) ((inJoin index values batchSize consistency next batch).work v)) := by
  unfold step
  refine ensures_bind hchild fun p hp => ?_
  cases p with
  | emit r rest =>
    refine ensures_pure ?_
    simp only [Pull.Below, work] at hp ⊢
    omega
  | busy rest =>
    refine ensures_pure ?_
    simp only [Pull.Below, work] at hp ⊢
    omega
  | done =>
    dsimp only
    split
    · exact ensures_pure trivial
    · rename_i hnext
      refine ensures_pure ?_
      have hstop : min (next + max 1 batchSize) values.length ≤ values.length :=
        Nat.min_le_right ..
      have hmore : next < min (next + max 1 batchSize) values.length := by omega
      generalize min (next + max 1 batchSize) values.length = stop at hstop hmore
      -- the values from `next` to `stop` move from the list into the batch
      have hsplit : values.length - next = (values.length - stop) + (stop - next) := by omega
      simp only [Pull.Below, work, workOfList_lookups, List.length_drop, List.length_take,
        Nat.min_eq_left hstop]
      rw [hsplit, Nat.add_mul (values.length - stop)]
      have hless : (stop - next) * (v.entryCount index + 3) <
          (stop - next) * (v.entryCount index + 4) :=
        Nat.mul_lt_mul_of_pos_left (by omega) (by omega)
      omega

theorem step_filter_below {child : CursorNode} (tests : List CompiledFilter)
    (hchild : (child.step v).Ensures (Pull.Below (work v) (child.work v))) :
    ((filter child tests).step v).Ensures
      (Pull.Below (work v) ((filter child tests).work v)) := by
  unfold step
  refine ensures_bind hchild fun p hp => ?_
  cases p with
  | done => exact ensures_pure trivial
  | busy next =>
    refine ensures_pure ?_
    simp only [Pull.Below, work] at hp ⊢
    omega
  | emit r next =>
    refine ensures_then fun accepted => ?_
    cases accepted <;>
    · refine ensures_pure ?_
      simp only [Pull.Below, work] at hp ⊢
      omega

theorem step_limit_below {child : CursorNode} (remaining : Nat)
    (hchild : (child.step v).Ensures (Pull.Below (work v) (child.work v))) :
    ((limit child remaining).step v).Ensures
      (Pull.Below (work v) ((limit child remaining).work v)) := by
  unfold step
  split
  · exact ensures_pure trivial
  · refine ensures_bind hchild fun p hp => ?_
    cases p with
    | done => exact ensures_pure trivial
    | _ =>
      refine ensures_pure ?_
      simp only [Pull.Below, work] at hp ⊢
      omega

end Nodes

mutual

/-- **Every step of a node ends it or lowers the work left to it.** -/
theorem step_below (v : StoreView) : ∀ node : CursorNode,
    (node.step v).Ensures (Pull.Below (work v) (node.work v))
  | .fullScan recordType consistency rows => step_fullScan_below v recordType consistency rows
  | .indexScan index bounds covering consistency rows =>
    step_indexScan_below v index bounds covering consistency rows
  | .chain children dedup => step_chain_below v dedup (stepHead_below v children)
  | .merge children key dedup heads waiting held =>
    step_merge_below v key dedup heads waiting held fun i => stepAt_below v i children
  | .join children key heads => step_join_below v key heads fun i => stepAt_below v i children
  | .inJoin index values batchSize consistency next batch =>
    step_inJoin_below v index values batchSize consistency next (stepHead_below v batch)
  | .filter child tests => step_filter_below v tests (step_below v child)
  | .limit child remaining => step_limit_below v remaining (step_below v child)

theorem stepHead_below (v : StoreView) : ∀ nodes : List CursorNode,
    (stepHead v nodes).Ensures (Pull.Below (workOfList v) (workOfList v nodes))
  | [] => by
    unfold stepHead
    exact ensures_pure trivial
  | node :: rest => by
    unfold stepHead
    refine ensures_bind (step_below v node) fun p hp => ?_
    cases p <;>
    · refine ensures_pure ?_
      simp only [Pull.Below, workOfList] at hp ⊢
      omega

theorem stepAt_below (v : StoreView) : ∀ (i : Nat) (nodes : List CursorNode),
    (stepAt v i nodes).Ensures (Pull.Below (workOfList v) (workOfList v nodes))
  | i, [] => by
    unfold stepAt
    exact ensures_pure trivial
  | 0, node :: rest => by
    unfold stepAt
    refine ensures_bind (step_below v node) fun p hp => ?_
    cases p with
    | done => exact ensures_pure trivial
    | _ =>
      refine ensures_pure ?_
      simp only [Pull.Below, workOfList] at hp ⊢
      omega
  | i + 1, node :: rest => by
    unfold stepAt
    refine ensures_bind (stepAt_below v i rest) fun p hp => ?_
    cases p with
    | done => exact ensures_pure trivial
    | _ =>
      refine ensures_pure ?_
      simp only [Pull.Below, workOfList] at hp ⊢
      omega

end

/-! ## Pulls -/

/-- What a pull gives is a record or the end. -/
def Settled {σ : Type} : Pull σ → Prop
  | .busy _ => False
  | .emit _ _ | .done => True

theorem pullWithin_ensures (v : StoreView) : ∀ (fuel : Nat) (node : CursorNode),
    node.work v ≤ fuel →
    (pullWithin v fuel node).Ensures fun p => Settled p ∧ p.Below (work v) (node.work v)
  | 0, node, h => absurd (work_pos v node) (by omega)
  | fuel + 1, node, h => by
    unfold pullWithin
    refine ensures_bind (step_below v node) fun p hp => ?_
    cases p with
    | done => exact ensures_pure ⟨trivial, trivial⟩
    | emit r next => exact ensures_pure ⟨trivial, hp⟩
    | busy next =>
      have hless : next.work v < node.work v := hp
      refine (pullWithin_ensures v fuel next (by omega)).mono fun q hq => ⟨hq.1, ?_⟩
      have hq := hq.2
      cases q <;> simp only [Pull.Below] at hq ⊢ <;> omega

/-- **A pull that succeeds gives a record or ends,** and a record leaves less work. -/
theorem pull_ensures (v : StoreView) (node : CursorNode) :
    (node.pull v).Ensures fun p => Settled p ∧ p.Below (work v) (node.work v) :=
  pullWithin_ensures v _ node (Nat.le_refl _)

end CursorNode

namespace Cursor

/-- Where a pull leaves a cursor: after a record it goes on with less work, and
else it has ended. -/
def Pulled.Accounted (v : StoreView) (before : Cursor) (p : Pulled) : Prop :=
  match p.result with
  | .ok (some _) => p.cursor.node.work v < before.node.work v
  | .ok none => p.cursor.state = .exhausted
  | .error _ => p.cursor.state = .failed

theorem next_accounted (c : Cursor) (v : StoreView) (cancelled : Bool) (trace : ReadTrace)
    (m : Monitor) : (c.next v cancelled trace m).Accounted v c := by
  have hpull : ∀ {after result}, (ExceptT.run (c.node.pull v)).run trace = (result, after) →
      ∀ p, result = .ok p → CursorNode.Settled p ∧ p.Below (CursorNode.work v) (c.node.work v) :=
    fun hrun p hp => CursorNode.pull_ensures v c.node trace p _ (hp ▸ hrun)
  unfold next
  split
  · assumption
  · assumption
  · split
    · rfl
    · split
      · rfl
      · rename_i hrun
        exact (hpull hrun _ rfl).2
      · rfl
  · split
    · rfl
    · split
      · rfl
      · rename_i hrun
        exact (hpull hrun _ rfl).2
      · rfl

theorem drainWithin_ended (v : StoreView) (cancelled : Bool) : ∀ (fuel : Nat) (c : Cursor)
    (trace : ReadTrace) (m : Monitor), c.node.work v < fuel →
    (drainWithin v cancelled fuel c trace m).2.2.cursor.state = .exhausted ∨
      (drainWithin v cancelled fuel c trace m).2.2.cursor.state = .failed
  | 0, _, _, _, h => absurd h (Nat.not_lt_zero _)
  | fuel + 1, c, trace, m, h => by
    have hnext := next_accounted c v cancelled trace m
    unfold drainWithin
    split <;> rename_i hc <;> rw [hc] at hnext
    · exact drainWithin_ended v cancelled fuel _ _ _
        (Nat.lt_of_lt_of_le hnext (Nat.le_of_lt_succ h))
    · exact .inl hnext
    · exact .inr hnext

/-- **A drained cursor has ended.** -/
theorem drain_ended (c : Cursor) (v : StoreView) (cancelled : Bool) (trace : ReadTrace)
    (m : Monitor) :
    (c.drain v cancelled trace m).2.2.cursor.state = .exhausted ∨
      (c.drain v cancelled trace m).2.2.cursor.state = .failed :=
  drainWithin_ended v cancelled _ c trace m (Nat.lt_succ_self _)

end Cursor

end RecordLayer
