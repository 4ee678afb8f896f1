import RecordLayer.Proofs.Store.Table
import RecordLayer.Store.View

/-!
# Scans of a range are exact

A scan of the entries of an index starts at the first one that is not before the start of its
range and stops at the first one past it. Among ascending entries that leaves out no key of the
range: a key before the start is not in the range, and behind a key that is past the range
there is none in it.
-/

namespace RecordLayer

/-- An upper bound admits whatever is not above a value that it admits. -/
theorem Bound.admitsBelow_of_le {bound : Bound} {v w : Value} (h : bound.admitsBelow w = true)
    (hle : v.compare w ≠ .gt) : bound.admitsBelow v = true := by
  cases bound with
  | unbounded => rfl
  | included u => exact Value.le_iff.2 (Value.le_trans hle (Value.le_iff.1 h))
  | excluded u => exact Value.lt_iff.2 (Value.lt_of_le_of_lt hle (Value.lt_iff.1 h))

namespace KeyRange

variable {range : KeyRange}

theorem contains_iff {key : List Value} :
    range.contains key = true ↔ ∃ rest, key = range.equal ++ rest ∧
      match rest with
      | [] => range.hasRange = false
      | next :: _ => range.lower.admitsAbove next = true ∧ range.upper.admitsBelow next = true := by
  unfold contains
  rw [Bool.and_eq_true, List.isPrefixOf_iff_prefix]
  constructor
  · rintro ⟨⟨rest, rfl⟩, h⟩
    refine ⟨rest, rfl, ?_⟩
    cases rest with
    | nil => simpa using h
    | cons next rest => simpa using h
  · rintro ⟨rest, rfl, h⟩
    refine ⟨List.prefix_append _ _, ?_⟩
    cases rest with
    | nil => simpa using h
    | cons next rest => simpa using h

theorem contains_cons (v x : Value) (ws xs : List Value) (lower upper : Bound) :
    contains ⟨v :: ws, lower, upper⟩ (x :: xs) = (v == x && contains ⟨ws, lower, upper⟩ xs) := by
  exact Bool.and_assoc ..

/-- The range without any bound. -/
theorem contains_everything (xs : List Value) : contains {} xs = true := by
  cases xs <;> rfl

/-- A list is not before a single value that is not above its first one. -/
theorem compareLists_singleton_ne_lt {next l : Value} (later : List Value)
    (h : l.compare next ≠ .gt) : Value.compareLists (next :: later) [l] ≠ .lt := by
  rw [Value.compare_swap] at h
  rw [Value.compareLists]
  cases hc : next.compare l with
  | lt =>
    rw [hc] at h
    exact absurd rfl h
  | eq => cases later <;> simp [Value.compareLists]
  | gt => simp

/-- No key of the range is before its start. -/
theorem compareLists_startKey_ne_lt {key : List Value} (h : range.contains key = true) :
    Value.compareLists key range.startKey ≠ .lt := by
  obtain ⟨rest, rfl, hrest⟩ := contains_iff.1 h
  rw [startKey, Value.compareLists_append_left]
  cases rest with
  | nil =>
    have : range.lower = .unbounded := by
      cases hl : range.lower with
      | unbounded => rfl
      | _ => simp [hasRange, hl, Bound.isUnbounded] at hrest
    simp [this, Bound.value?]
  | cons next later =>
    -- the first field behind the fixed ones is not below the lower bound
    obtain ⟨hadmits, -⟩ := hrest
    cases hl : range.lower with
    | unbounded => simp [Bound.value?, Value.compareLists]
    | included l =>
      rw [hl] at hadmits
      exact compareLists_singleton_ne_lt later (Value.le_iff.1 hadmits)
    | excluded l =>
      rw [hl] at hadmits
      refine compareLists_singleton_ne_lt later ?_
      rw [Value.lt_iff.1 hadmits]
      simp

/-- A key that begins as the keys of the range do is past it if it goes on above the upper bound. -/
theorem isPast_append {rest : List Value} : range.isPast (range.equal ++ rest) = true ↔
    ∃ next later, rest = next :: later ∧ range.upper.admitsBelow next = false := by
  rw [isPast, List.isPrefixOf_iff_prefix.2 (List.prefix_append _ _), Bool.not_true, Bool.false_or]
  cases rest <;> simp

/-- Behind a key that is past the range there is none of the range. -/
theorem contains_eq_false_of_isPast {key later : List Value}
    (hstart : Value.compareLists key range.startKey ≠ .lt) (hpast : range.isPast key = true)
    (hlater : Value.compareLists key later ≠ .gt) : range.contains later = false := by
  refine Bool.eq_false_iff.2 fun hcontains => ?_
  obtain ⟨rest, rfl, hrest⟩ := contains_iff.1 hcontains
  by_cases hbegins : range.equal <+: key
  · -- what is not before a key above the upper bound is above it too
    obtain ⟨rest', rfl⟩ := hbegins
    obtain ⟨next', later', rfl, habove⟩ := isPast_append.1 hpast
    rw [Value.compareLists_append_left] at hlater
    cases rest with
    | nil => exact hlater rfl
    | cons next later =>
      have hle : next'.compare next ≠ .gt := by
        intro hgt
        rw [Value.compareLists, hgt] at hlater
        exact hlater rfl
      rw [Bound.admitsBelow_of_le hrest.2 hle] at habove
      cases habove
  · -- the key is behind all those that begin as the keys of the range do
    have hkey : Value.compareLists range.startKey key ≠ .gt := by
      rw [Value.compareLists_swap]
      exact mt Ordering.swap_eq_gt.1 hstart
    have hequal : Value.compareLists range.equal key ≠ .gt :=
      Value.compareLists_trans (Value.compareLists_append_ne_gt _ _) hkey
    rw [Value.compareLists_swap, Value.compareLists_append_eq_lt hequal hbegins] at hlater
    exact hlater rfl

end KeyRange

namespace StoreView

theorem compareLists_of_compare_lt {e f : EntryKey} (h : e.compare f = .lt) :
    Value.compareLists e.key f.key ≠ .gt := by
  unfold EntryKey.compare at h
  intro hgt
  rw [hgt] at h
  cases h

/-- **A search finds the first key of its range.** It stops at the first key past the range, behind
which there is none in it. -/
theorem firstWithin?_eq {range : KeyRange} {entries : List EntryKey}
    (h : EntryKey.Ascending entries)
    (hstart : ∀ e ∈ entries, Value.compareLists e.key range.startKey ≠ .lt) :
    firstWithin? range entries = (entries.filter fun e => range.contains e.key).head? := by
  induction entries with
  | nil => rfl
  | cons e entries ih =>
    obtain ⟨he, hrest⟩ := List.pairwise_cons.1 h
    have hs := hstart e (by simp)
    rw [firstWithin?]
    cases hp : range.isPast e.key with
    | false =>
      rw [if_neg nofun, ih hrest fun f hf => hstart f (List.mem_cons_of_mem _ hf)]
      cases hc : range.contains e.key with
      | true => rw [if_pos rfl, List.filter_cons_of_pos (by exact hc), List.head?_cons]
      | false => rw [if_neg nofun, List.filter_cons_of_neg (by simp [hc])]
    | true =>
      -- nothing behind a key past the range is in the range, and the key itself is not either
      have hnone : ∀ f ∈ e :: entries, ¬range.contains f.key = true := by
        intro f hf
        have hle : Value.compareLists e.key f.key ≠ .gt := by
          rcases List.mem_cons.1 hf with rfl | hf
          · simp
          · exact compareLists_of_compare_lt (he f hf)
        simp [KeyRange.contains_eq_false_of_isPast hs hp hle]
      rw [if_pos rfl, List.filter_eq_nil_iff.2 hnone, List.head?_nil]

end StoreView

end RecordLayer
