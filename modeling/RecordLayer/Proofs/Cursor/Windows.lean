import RecordLayer.Proofs.Cursor.Drains
import RecordLayer.Proofs.Filter.Evaluation

/-!
# Windows of ranks

A scan by rank asks the ranking for the values at the two ends of its window and scans the keys
between them. **It gives the records whose rank lies in the window.** A value is past the one at
place `k` of the ascending values exactly if more than `k` values are smaller, which turns the
comparison with an end of the window into one of ranks.

The ends of a window are places, so a scan goes by the number of smaller values, however large
it is. Ranks are counted in 64 bits: with fewer than `UInt64.size` rows no rank is cut, and none
is the largest one.
-/

namespace RecordLayer

open Reading

/-- Whether a rank lies in a window. -/
def inWindow (start : UInt64) (stop : Option UInt64) (rank : UInt64) : Bool :=
  start ≤ rank && match stop with
    | none => true
    | some stop => rank < stop

/-- Whether a number of smaller values lies in a window. -/
def countInWindow (start : UInt64) (stop : Option UInt64) (count : Nat) : Bool :=
  start.toNat ≤ count && match stop with
    | none => true
    | some stop => count < stop.toNat

theorem inWindow_eq (start : UInt64) (stop : Option UInt64) (rank : UInt64) :
    inWindow start stop rank = countInWindow start stop rank.toNat := by
  unfold inWindow countInWindow
  cases stop <;> simp only [UInt64.le_iff_toNat_le, UInt64.lt_iff_toNat_lt]

/-- How many rows have a smaller value in a field. -/
def countBelow (t : RecordType) (rows : List Record) (field : String) (value : Value) : Nat :=
  rows.countP fun r => (t.valueOf r field).lt value

/-! ## Places among ascending values -/

/-- A value is past the one at a place exactly if more values than stand before it are smaller. -/
theorem compare_getElem_iff {values : List Value} {w : Value}
    (h : values.Pairwise fun a b => a.compare b ≠ .gt) : ∀ {k : Nat} (hk : k < values.length),
      values[k].compare w = .lt ↔ k < values.countP fun u => u.compare w == .lt := by
  -- the smaller values stand in front, so they are counted up to the first that is not smaller
  induction values with
  | nil => exact fun hk => absurd hk (by simp)
  | cons x rest ih =>
    intro k hk
    obtain ⟨hx, hrest⟩ := List.pairwise_cons.1 h
    by_cases hlt : x.compare w = .lt
    · rw [List.countP_cons_of_pos (by simp [hlt])]
      cases k with
      | zero => simpa using hlt
      | succ k =>
        rw [List.getElem_cons_succ, ih hrest (by simpa using hk)]
        omega
    · -- no value from here on is smaller
      have hnone : ∀ u ∈ x :: rest, u.compare w ≠ .lt := by
        intro u hu huw
        rcases List.mem_cons.1 hu with rfl | hu
        · exact hlt huw
        · exact hlt (Value.lt_of_le_of_lt (hx u hu) huw)
      have hzero : (x :: rest).countP (fun u => u.compare w == .lt) = 0 :=
        List.countP_eq_zero.2 fun u hu => by simpa using hnone u hu
      rw [hzero]
      exact ⟨fun hk' => absurd hk' (hnone _ (List.getElem_mem hk)),
        fun hk' => absurd hk' (by omega)⟩

/-- A value has fewer smaller values than there are values. -/
theorem countP_lt_length {values : List Value} {w : Value} (hw : w ∈ values) :
    values.countP (fun u => u.compare w == .lt) < values.length := by
  refine Nat.lt_of_le_of_ne List.countP_le_length fun heq => ?_
  have := List.countP_eq_length.1 heq w hw
  simp at this

namespace CursorNode

variable {v : StoreView} {t : RecordType} {rows : List Record} {i : Index} {field : String}

theorem contains_single (lower upper : Bound) (w : Value) :
    KeyRange.contains ⟨[], lower, upper⟩ [w] = (lower.admitsAbove w && upper.admitsBelow w) := rfl

/-- The sorted values of a ranking, among which places are looked up. -/
theorem exists_ranking (h : v.Serves t rows) (hi : i ∈ v.catalog.plannableIndexes t.name)
    (hrank : i.isRank = true) (hfield : i.keyFields = [field]) :
    ∃ values : List Value, values.Pairwise (fun a b => a.compare b ≠ .gt) ∧
      (∀ r ∈ rows, t.valueOf r field ∈ values) ∧
      (∀ w, countBelow t rows field w = values.countP fun u => u.compare w == .lt) ∧
      ∀ rank : UInt64, (v.selectRank i rank).Gives values[rank.toNat]? := by
  have hperm : (Value.sort (rows.map (t.valueOf · field))).Perm (rows.map (t.valueOf · field)) :=
    List.mergeSort_perm _ _
  refine ⟨_, Value.sort_sorted _, fun r hr => ?_, fun w => ?_,
    (h.answersFrom hi hrank hfield).selectRank⟩
  · exact hperm.mem_iff.2 (List.mem_map.2 ⟨r, hr, rfl⟩)
  · rw [hperm.countP_eq, List.countP_map]
    rfl

/-- The ranks of stored values are counted without being cut. -/
theorem rankAmong_toNat (hcount : rows.length < UInt64.size) (field : String) (w : Value) :
    (rankAmong t rows field w).toNat = countBelow t rows field w := by
  have hle : countBelow t rows field w ≤ rows.length := List.countP_le_length
  show ((countBelow t rows field w).toUInt64).toNat = _
  rw [Nat.toUInt64_eq, UInt64.toNat_ofNat']
  exact Nat.mod_eq_of_lt (Nat.lt_of_le_of_lt hle hcount)

/-- No stored value has the largest rank. -/
theorem rankAmong_ne_max (hcount : rows.length < UInt64.size) {r : Record} (hr : r ∈ rows)
    (field : String) : rankAmong t rows field (t.valueOf r field) ≠ maxRank := by
  intro heq
  have hlt := countP_lt_length (List.mem_map.2 ⟨r, hr, rfl⟩ :
    t.valueOf r field ∈ rows.map (t.valueOf · field))
  rw [List.countP_map, List.length_map] at hlt
  have hnat : maxRank.toNat = _ := heq ▸ rankAmong_toNat hcount field (t.valueOf r field)
  have hmax : maxRank.toNat = UInt64.size - 1 := rfl
  have hbelow : countBelow t rows field (t.valueOf r field) < rows.length := hlt
  omega

/-- The lower end of the keys of a window, given the ascending values. -/
def lowerEnd (values : List Value) (start : UInt64) : Option Bound :=
  if start = 0 then some .unbounded else values[(start - 1).toNat]?.map .excluded

/-- The upper end of the keys of a window, given the ascending values. -/
def upperEnd (values : List Value) : Option UInt64 → Bound
  | none => .unbounded
  | some stop =>
    match values[(stop - 1).toNat]? with
    | some value => .included value
    | none => .unbounded

theorem toNat_pred {n : UInt64} (h : n ≠ 0) : (n - 1).toNat + 1 = n.toNat := by
  have hpos : 0 < n.toNat := Nat.pos_of_ne_zero fun hz => h (UInt64.toNat_inj.1 hz)
  have hle : (1 : UInt64) ≤ n := UInt64.le_iff_toNat_le.2 hpos
  rw [UInt64.toNat_sub_of_le _ _ hle]
  show n.toNat - 1 + 1 = n.toNat
  omega

section Ends

variable {values : List Value} {w : Value}

/-- A stored value lies above the lower end exactly if its rank is not below the start. -/
theorem lowerEnd_spec (hsorted : values.Pairwise fun a b => a.compare b ≠ .gt) (hw : w ∈ values)
    (start : UInt64) : ((lowerEnd values start).any (·.admitsAbove w)) =
      decide (start.toNat ≤ values.countP fun u => u.compare w == .lt) := by
  unfold lowerEnd
  by_cases hs : start = 0
  · rw [if_pos hs, hs]
    simp [Bound.admitsAbove]
  · rw [if_neg hs]
    have hpred := toNat_pred hs
    rw [Bool.eq_iff_iff, decide_eq_true_iff, ← hpred]
    cases hx : values[(start - 1).toNat]? with
    | none =>
      have hlt := countP_lt_length hw
      have hge := List.getElem?_eq_none_iff.1 hx
      simp only [Option.map_none, Option.any_none, Bool.false_eq_true, false_iff]
      omega
    | some x =>
      obtain ⟨hlt, rfl⟩ := List.getElem?_eq_some_iff.1 hx
      simp only [Option.map_some, Option.any_some, Bound.admitsAbove, Value.lt_iff]
      exact compare_getElem_iff hsorted hlt

/-- A stored value lies below the upper end exactly if its rank is below the stop. -/
theorem upperEnd_spec (hsorted : values.Pairwise fun a b => a.compare b ≠ .gt) (hw : w ∈ values)
    {stop : UInt64} (hstop : stop ≠ 0) : (upperEnd values (some stop)).admitsBelow w =
      decide ((values.countP fun u => u.compare w == .lt) < stop.toNat) := by
  have hpred := toNat_pred hstop
  rw [Bool.eq_iff_iff, decide_eq_true_iff, ← hpred]
  unfold upperEnd
  dsimp only
  cases hx : values[(stop - 1).toNat]? with
  | none =>
    -- the window ends behind the last value, so nothing is cut off
    have hlt := countP_lt_length hw
    have hge := List.getElem?_eq_none_iff.1 hx
    simp only [Bound.admitsBelow, true_iff]
    omega
  | some x =>
    obtain ⟨hlt, rfl⟩ := List.getElem?_eq_some_iff.1 hx
    have hiff := compare_getElem_iff hsorted hlt (w := w)
    rw [Bound.admitsBelow, Value.le_iff, Value.compare_swap]
    cases hc : values[(stop - 1).toNat].compare w with
    | lt => simpa using Nat.succ_le_of_lt (hiff.1 hc)
    | eq | gt =>
      have hnot : ¬(stop - 1).toNat < values.countP fun u => u.compare w == .lt := fun h => by
        rw [hiff.2 h] at hc
        cases hc
      simpa [Nat.lt_succ_iff] using hnot

/-- **Between the two ends lie the values whose number of smaller ones lies in the window.** -/
theorem ends_spec (hsorted : values.Pairwise fun a b => a.compare b ≠ .gt) (hw : w ∈ values)
    {start : UInt64} {stop : Option UInt64}
    (hwindow : (ScanBounds.ranks start stop).isEmptyWindow = false) :
    ((lowerEnd values start).any (·.admitsAbove w) && (upperEnd values stop).admitsBelow w) =
      countInWindow start stop (values.countP fun u => u.compare w == .lt) := by
  rw [lowerEnd_spec hsorted hw]
  cases stop with
  | none => rfl
  | some stop =>
    have hstop : stop ≠ 0 := by
      rintro rfl
      simp [ScanBounds.isEmptyWindow] at hwindow
    rw [upperEnd_spec hsorted hw hstop]
    rfl

end Ends

/-- No number lies in a window without a rank. -/
theorem countInWindow_of_isEmptyWindow {start : UInt64} {stop : Option UInt64}
    (h : (ScanBounds.ranks start stop).isEmptyWindow = true) (count : Nat) :
    countInWindow start stop count = false := by
  cases stop with
  | none => simp [ScanBounds.isEmptyWindow] at h
  | some stop =>
    have hle : stop ≤ start := by simpa [ScanBounds.isEmptyWindow] using h
    have hle := UInt64.le_iff_toNat_le.1 hle
    rw [countInWindow, Bool.and_eq_false_imp]
    intro hstart
    have hstart := of_decide_eq_true hstart
    exact decide_eq_false (by omega)

/-- The keys between which a scan by rank looks. -/
theorem resolve_ranks_gives {values : List Value}
    (hselect : ∀ rank : UInt64, (v.selectRank i rank).Gives values[rank.toNat]?)
    (start : UInt64) (stop : Option UInt64) :
    (resolve v i (.ranks start stop)).Gives
      (if (ScanBounds.ranks start stop).isEmptyWindow then none
        else (lowerEnd values start).map (⟨[], ·, upperEnd values stop⟩)) := by
  unfold resolve
  dsimp only
  split
  · exact gives_pure _
  · -- the upper end is looked up after the lower one, whatever that is
    have hupper : ∀ lower : Bound, Gives (do
        let upper ← match stop with
          | none => pure Bound.unbounded
          | some stop => do
            match ← v.selectRank i (stop - 1) with
            | some value => pure (Bound.included value)
            | none => pure Bound.unbounded
        return some (⟨[], lower, upper⟩ : KeyRange))
        (some ⟨[], lower, upperEnd values stop⟩) := by
      intro lower
      cases stop with
      | none => exact gives_pure _
      | some stop =>
        refine gives_bind (hselect (stop - 1)) ?_
        unfold upperEnd
        dsimp only
        cases values[(stop - 1).toNat]? with
        | none => exact gives_pure _
        | some value => exact gives_pure _
    unfold lowerEnd
    by_cases hs : start = 0
    · rw [if_pos hs, if_pos hs]
      exact gives_bind (gives_pure _) (hupper _)
    · rw [if_neg hs, if_neg hs]
      refine gives_bind (hselect (start - 1)) (gives_bind (gives_pure _) ?_)
      cases values[(start - 1).toNat]? with
      | none => exact gives_pure _
      | some value => exact hupper _

/-- **A scan by rank finds the records whose number of smaller values lies in its window.** -/
theorem openScan_ranks_gives (h : v.Serves t rows) (hi : i ∈ v.catalog.plannableIndexes t.name)
    (hrank : i.isRank = true) (hfield : i.keyFields = [field]) (start : UInt64)
    (stop : Option UInt64) (consistency : Consistency) :
    Opens v i (.ranks start stop) consistency
      (((i.sorted t rows).filter fun r => countInWindow start stop
        (countBelow t rows field (t.valueOf r field))).map (i.rowOf t)) := by
  obtain ⟨values, hsorted, hmem, hbelow, hselect⟩ := exists_ranking h hi hrank hfield
  have hresolve := resolve_ranks_gives hselect start stop
  have hstored : ∀ r ∈ i.sorted t rows, t.valueOf r field ∈ values := fun r hr =>
    hmem r ((i.sorted_perm t rows).mem_iff.1 hr)
  have hempty : (∀ r ∈ i.sorted t rows,
      countInWindow start stop (countBelow t rows field (t.valueOf r field)) = false) →
      (i.sorted t rows).filter (fun r => countInWindow start stop
        (countBelow t rows field (t.valueOf r field))) = [] := fun hout =>
    List.filter_eq_nil_iff.2 fun r hr => by simp [hout r hr]
  by_cases hwindow : (ScanBounds.ranks start stop).isEmptyWindow = true
  · -- a window without a rank is not looked up
    rw [if_pos hwindow] at hresolve
    rw [hempty fun r _ => countInWindow_of_isEmptyWindow hwindow _]
    exact .inr ⟨gives_bind hresolve (gives_pure _), rfl⟩
  · rw [if_neg hwindow] at hresolve
    have hends : ∀ r ∈ i.sorted t rows,
        ((lowerEnd values start).any (·.admitsAbove (t.valueOf r field)) &&
          (upperEnd values stop).admitsBelow (t.valueOf r field)) =
        countInWindow start stop (countBelow t rows field (t.valueOf r field)) := fun r hr => by
      rw [hbelow, ends_spec hsorted (hstored r hr) (Bool.eq_false_iff.2 hwindow)]
    cases hl : lowerEnd values start with
    | none =>
      -- the window starts behind the last value
      rw [hl] at hresolve hends
      rw [hempty fun r hr => (hends r hr).symm]
      exact .inr ⟨gives_bind hresolve (gives_pure _), rfl⟩
    | some lower =>
      rw [hl] at hresolve hends
      refine .inl (gives_bind hresolve (gives_bind ?_ (gives_pure _)))
      have hscan := h.scanIndex_gives hi ⟨[], lower, upperEnd values stop⟩ consistency
      rw [List.filter_congr fun r hr => ?_] at hscan
      · exact hscan
      · rw [← hends r hr, Option.any_some]
        simp only [Index.keyOf, hfield, List.map_cons, List.map_nil, contains_single]

end CursorNode

end RecordLayer
