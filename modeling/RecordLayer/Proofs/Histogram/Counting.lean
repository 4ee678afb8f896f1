import RecordLayer.Histogram
import RecordLayer.Proofs.Value.Order

/-!
# Counting the rows of a histogram

The counts of the buckets are added up in 64 bits. **The sum is the number of rows as long as that
fits, and the number of rows less a multiple of `UInt64.size` where it does not,** so a histogram of
very many rows may look as if it described none. `Histogram.total?` is the same sum with a check at
every step.

`Histogram.Sound` says what validation accepts: buckets that are in order by themselves and among
each other. It sets no bound on the rows of all buckets together.
-/

namespace RecordLayer

/-! ## What validation accepts -/

/-- A bucket that is in order by itself, with bounds of the given kind. -/
structure Bucket.Sound (kind : Option Value.Kind) (b : Bucket) : Prop where
  bounds : b.lower.compare b.upper ≠ .gt
  distinct_le : b.distinctCount ≤ b.count
  distinct_ne : b.count ≠ 0 → b.distinctCount ≠ 0
  kinds : ∀ v ∈ [b.lower, b.upper], v.isNull = false → some v.kind = kind

namespace Histogram

/-- Buckets that are in order, each one below the next. -/
structure Sound (h : Histogram) : Prop where
  bucket : ∀ b ∈ h.buckets, b.Sound h.kind?
  ascending : h.buckets.Pairwise fun a b => a.upper.compare b.lower = .lt

theorem ite_some_eq_none_iff {α : Type} {c : Prop} [Decidable c] {a : α} {rest : Option α} :
    (if c then some a else rest) = none ↔ ¬c ∧ rest = none := by
  by_cases hc : c <;> simp [hc]

theorem bucketFault_eq_none_iff {kind : Option Value.Kind} {i : Nat} {b : Bucket} :
    bucketFault kind i b = none ↔ b.Sound kind := by
  have hbounds : ¬b.upper.lt b.lower = true ↔ b.lower.compare b.upper ≠ .gt := by
    rw [Value.lt_iff, Value.compare_swap, Ordering.swap_eq_lt]
  have hkinds : ¬([b.lower, b.upper].any fun v => !v.isNull && some v.kind != kind) = true ↔
      ∀ v ∈ [b.lower, b.upper], v.isNull = false → some v.kind = kind := by
    simp only [List.any_eq_true, Bool.and_eq_true, Bool.not_eq_true', bne_iff_ne, not_exists,
      not_and, Classical.not_not, ne_eq]
  rw [bucketFault, ite_some_eq_none_iff, ite_some_eq_none_iff, ite_some_eq_none_iff,
    ite_some_eq_none_iff, hbounds, hkinds]
  constructor
  · rintro ⟨hlower, hdistinct, hrows, hmixed, -⟩
    exact ⟨hlower, UInt64.not_lt.1 hdistinct,
      fun hcount hzero => hrows ⟨UInt64.pos_iff_ne_zero.2 hcount, hzero⟩, hmixed⟩
  · intro h
    exact ⟨h.bounds, UInt64.not_lt.2 h.distinct_le,
      fun hrows => h.distinct_ne (UInt64.pos_iff_ne_zero.1 hrows.1) hrows.2, h.kinds, rfl⟩

theorem firstBucketFault_eq_none_iff {kind : Option Value.Kind} {buckets : List Bucket} :
    ∀ i : Nat, firstBucketFault kind i buckets = none ↔ ∀ b ∈ buckets, b.Sound kind := by
  induction buckets with
  | nil => simp [firstBucketFault]
  | cons b rest ih =>
    intro i
    rw [firstBucketFault, Option.or_eq_none_iff, ih, bucketFault_eq_none_iff, List.forall_mem_cons]

/-- Where each bucket is in order, comparing neighbours is enough. -/
theorem firstOverlap_eq_none_iff {buckets : List Bucket}
    (h : ∀ b ∈ buckets, b.lower.compare b.upper ≠ .gt) : ∀ i : Nat,
      firstOverlap i buckets = none ↔
        buckets.Pairwise fun a b => a.upper.compare b.lower = .lt := by
  induction buckets with
  | nil => simp [firstOverlap]
  | cons a rest ih =>
    intro i
    cases rest with
    | nil => simp [firstOverlap]
    | cons b rest =>
      have hrest := ih (fun c hc => h c (List.mem_cons_of_mem _ hc)) (i + 1)
      rw [firstOverlap, List.pairwise_cons]
      split
      · -- neighbours in order put all buckets in order, as each starts no later than it ends
        rename_i hab
        rw [hrest]
        refine ⟨fun hpairs => ⟨fun c hc => ?_, hpairs⟩, And.right⟩
        rcases List.mem_cons.1 hc with rfl | hc
        · exact Value.lt_iff.1 hab
        · -- the bounds of `b` lead from the end of `a` to the start of `c`
          exact Value.lt_of_lt_of_le (Value.lt_of_lt_of_le (Value.lt_iff.1 hab) (h b (by simp)))
            (by rw [(List.pairwise_cons.1 hpairs).1 c hc]; simp)
      · rename_i hab
        refine ⟨fun hnone => (by cases hnone), fun hpairs => ?_⟩
        exact absurd (Value.lt_iff.2 (hpairs.1 b (by simp))) hab

/-- **Validation accepts just the histograms that are sound.** -/
theorem validate_eq_ok_iff {h : Histogram} {index : String} :
    h.validate index = .ok () ↔ h.Sound := by
  have hfault : h.fault? = none ↔ h.Sound := by
    have hneighbours (hbuckets : ∀ b ∈ h.buckets, b.Sound h.kind?) :=
      firstOverlap_eq_none_iff (fun b hb => (hbuckets b hb).bounds) 0
    rw [fault?, Option.or_eq_none_iff, firstBucketFault_eq_none_iff]
    constructor
    · rintro ⟨hbuckets, hoverlap⟩
      exact ⟨hbuckets, (hneighbours hbuckets).1 hoverlap⟩
    · rintro ⟨hbuckets, hascending⟩
      exact ⟨hbuckets, (hneighbours hbuckets).2 hascending⟩
  rw [← hfault, validate]
  cases h.fault? <;> simp

/-! ## Sums -/

/-- How many rows the buckets hold together. -/
def rows (h : Histogram) : Nat := h.buckets.foldr (fun b n => b.count.toNat + n) 0

@[simp] theorem rows_nil : rows ⟨[]⟩ = 0 := rfl

@[simp] theorem rows_cons (b : Bucket) (rest : List Bucket) :
    rows ⟨b :: rest⟩ = b.count.toNat + rows ⟨rest⟩ := rfl

/-- The sum of the counts, unless an addition on the way leaves 64 bits. -/
def total? (h : Histogram) : Option UInt64 :=
  h.buckets.foldlM (fun n b =>
    if n.toNat + b.count.toNat < UInt64.size then some (n + b.count) else none) 0

theorem toNat_foldl_count (buckets : List Bucket) : ∀ n : UInt64,
    (buckets.foldl (fun n b => n + b.count) n).toNat =
      (n.toNat + rows ⟨buckets⟩) % UInt64.size := by
  induction buckets with
  | nil => exact fun n => (Nat.mod_eq_of_lt n.toNat_lt).symm
  | cons b rest ih =>
    intro n
    rw [List.foldl_cons, ih, UInt64.toNat_add, rows_cons]
    simp only [UInt64.size]
    omega

theorem foldlM_count_eq (buckets : List Bucket) : ∀ n : UInt64,
    buckets.foldlM (fun n b =>
        if n.toNat + b.count.toNat < UInt64.size then some (n + b.count) else none) n =
      if n.toNat + rows ⟨buckets⟩ < UInt64.size then
        some (buckets.foldl (fun n b => n + b.count) n) else none := by
  induction buckets with
  | nil =>
    intro n
    rw [if_pos (by simpa using n.toNat_lt)]
    rfl
  | cons b rest ih =>
    intro n
    rw [List.foldlM_cons, List.foldl_cons, rows_cons]
    by_cases hfits : n.toNat + b.count.toNat < UInt64.size
    · have hadd : (n + b.count).toNat = n.toNat + b.count.toNat := by
        rw [UInt64.toNat_add]
        exact Nat.mod_eq_of_lt hfits
      rw [if_pos hfits]
      show List.foldlM _ (n + b.count) rest = _
      rw [ih, hadd, Nat.add_assoc]
    · -- what leaves 64 bits here does so with the rest added as well
      rw [if_neg hfits, if_neg (by omega)]
      rfl

/-- **The sum is the number of rows, less a multiple of `UInt64.size`.** -/
theorem toNat_total (h : Histogram) : h.total.toNat = h.rows % UInt64.size := by
  rw [total, toNat_foldl_count, UInt64.toNat_zero, Nat.zero_add]

/-- **The checked sum is there just if the number of rows fits into 64 bits.** -/
theorem total?_eq (h : Histogram) :
    h.total? = if h.rows < UInt64.size then some h.total else none := by
  rw [total?, foldlM_count_eq, UInt64.toNat_zero, Nat.zero_add, total]

/-- The sum of the counts is the number of rows, and no addition on the way left 64 bits. -/
def Exact (h : Histogram) : Prop := h.total? = some h.total ∧ h.total.toNat = h.rows

theorem exact_iff {h : Histogram} : h.Exact ↔ h.rows < UInt64.size := by
  rw [Exact, total?_eq, toNat_total]
  constructor
  · rintro ⟨hsome, -⟩
    split at hsome
    · assumption
    · cases hsome
  · intro hrows
    exact ⟨if_pos hrows, Nat.mod_eq_of_lt hrows⟩

/-- Estimates take a histogram for an empty one if its sum is zero. -/
theorem total_eq_zero_iff (h : Histogram) : h.total = 0 ↔ UInt64.size ∣ h.rows := by
  rw [← UInt64.toNat_inj, UInt64.toNat_zero, toNat_total, Nat.dvd_iff_mod_eq_zero]

theorem rows_eq_zero_iff {h : Histogram} : h.rows = 0 ↔ ∀ b ∈ h.buckets, b.count = 0 := by
  obtain ⟨buckets⟩ := h
  induction buckets with
  | nil => simp
  | cons b rest ih =>
    rw [rows_cons, Nat.add_eq_zero_iff, ih, List.forall_mem_cons, ← UInt64.toNat_inj,
      UInt64.toNat_zero]

end Histogram

end RecordLayer
