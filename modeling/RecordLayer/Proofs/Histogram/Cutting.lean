import Mathlib.Data.List.Dedup
import RecordLayer.Proofs.Histogram.Counting

/-!
# Cutting values into buckets

Ascending values are cut into runs, and each run becomes a bucket. A run ends only where the next
value is another one, so all of its values are below all later ones: **the buckets of a histogram
are apart, and each counts just the values between its bounds.** A run has at least as many values
as asked for, unless it is the last one, so there are no more buckets than asked for either.

`Cuts` is the cutting without a bound on its steps, one constructor for a run. What is true of all
runs follows by induction on it, and what is true of one bucket from the values around its run.
-/

namespace RecordLayer

/-! ## Ascending values -/

namespace Value

/-- No value comes after a larger one. -/
abbrev Ascends (values : List Value) : Prop := values.Pairwise fun a b => a.compare b ≠ .gt

/-- Each value of the first list is below each one of the second. -/
def Below (as bs : List Value) : Prop := ∀ a ∈ as, ∀ b ∈ bs, a.compare b = .lt

theorem lt_of_le_of_ne {a b : Value} (hle : a.compare b ≠ .gt) (hne : b ≠ a) :
    a.compare b = .lt := by
  cases h : a.compare b with
  | lt => rfl
  | eq => exact absurd (compare_eq_iff.1 h).symm hne
  | gt => exact absurd h hle

theorem not_lt_of_lt {a b : Value} (h : a.compare b = .lt) : b.compare a = .gt := by
  rw [compare_swap, h]
  rfl

/-- In ascending values, all that follow those equal to the first one are above it. -/
theorem lt_of_mem_dropWhile {a : Value} : ∀ {values : List Value}, Ascends (a :: values) →
    ∀ b ∈ values.dropWhile (· == a), a.compare b = .lt := by
  intro values
  induction values with
  | nil => simp
  | cons c rest ih =>
    intro hsorted b hb
    obtain ⟨hfirst, hrest⟩ := List.pairwise_cons.1 hsorted
    rw [List.dropWhile_cons] at hb
    split at hb
    · refine ih (List.pairwise_cons.2 ⟨fun d hd => hfirst d (by simp [hd]), ?_⟩) b hb
      exact (List.pairwise_cons.1 hrest).2
    · rename_i hc
      have hac : a.compare c = .lt := lt_of_le_of_ne (hfirst c (by simp)) (by simpa using hc)
      rcases List.mem_cons.1 hb with rfl | hb
      · exact hac
      · exact lt_of_lt_of_le hac ((List.pairwise_cons.1 hrest).1 b hb)

/-- Sorting ascending values changes nothing. -/
theorem sort_eq_self {values : List Value} (h : Ascends values) : sort values = values :=
  (eq_sort (.refl _) h).symm

theorem length_sortDistinct (values : List Value) :
    (sortDistinct values).length = values.dedup.length := by
  have hnodup : (sortDistinct values).Nodup :=
    (sortDistinct_ascending values).imp fun hab heq => by simp [heq] at hab
  have hperm : (sortDistinct values).Perm values.dedup :=
    (List.perm_ext_iff_of_nodup hnodup (List.nodup_dedup _)).2 fun v => by
      rw [mem_sortDistinct, List.mem_dedup]
  exact hperm.length_eq

end Value

namespace Histogram

open Value

/-! ## Runs -/

/-- Cuts values into runs of at least `depth` values, each one below those that follow. -/
inductive Cuts (depth : Nat) : List Value → List (List Value) → Prop
  | done : Cuts depth [] []
  | run {run rest : List Value} {runs : List (List Value)} (hne : run ≠ [])
    (hdepth : depth ≤ run.length ∨ rest = []) (hbelow : Below run rest)
    (hrest : Cuts depth rest runs) : Cuts depth (run ++ rest) (run :: runs)

/-- **One step of the cutting.** The run takes all values equal to its last one along. -/
theorem splitBucket_run {depth : Nat} (hdepth : 0 < depth) {values : List Value}
    (hne : values ≠ []) (hsorted : Ascends values) :
    ∃ run rest, splitBucket depth values = (run, rest) ∧ values = run ++ rest ∧ run ≠ [] ∧
      (depth ≤ run.length ∨ rest = []) ∧ Below run rest := by
  have hvalues := List.take_append_drop depth values
  obtain ⟨front, last, hfirst⟩ : ∃ front last, values.take depth = front ++ [last] := by
    rcases List.eq_nil_or_concat (values.take depth) with hnil | ⟨front, last, hfirst⟩
    · rw [List.take_eq_nil_iff] at hnil
      exact absurd hnil (by simp [hne]; omega)
    · exact ⟨front, last, by simpa using hfirst⟩
  have hlast : (values.take depth).getLast? = some last := by rw [hfirst, List.getLast?_concat]
  refine ⟨values.take depth ++ (values.drop depth).takeWhile (· == last),
    (values.drop depth).dropWhile (· == last), ?_, ?_, by simp [hfirst], ?_, ?_⟩
  · rw [splitBucket, hlast]
  · rw [List.append_assoc, List.takeWhile_append_dropWhile, hvalues]
  · by_cases hlong : depth ≤ values.length
    · left
      rw [List.length_append, List.length_take, Nat.min_eq_left hlong]
      exact Nat.le_add_right _ _
    · right
      rw [List.drop_eq_nil_of_le (by omega), List.dropWhile_nil]
  · rw [← hvalues, hfirst, List.append_assoc] at hsorted
    obtain ⟨-, hback, hfront⟩ := List.pairwise_append.1 hsorted
    intro a ha b hb
    have hab : last.compare b = .lt := lt_of_mem_dropWhile hback b hb
    rw [hfirst, List.append_assoc, List.mem_append] at ha
    rcases ha with ha | ha
    · exact lt_of_le_of_lt (hfront a ha last (by simp)) hab
    · rcases List.mem_cons.1 ha with rfl | ha
      · exact hab
      · have heq : a = last := by simpa using List.all_eq_true.1 List.all_takeWhile a ha
        rw [heq]
        exact hab

/-- **The cutting ends by itself.** Its steps are as many as there are runs, however many more it
might take. -/
theorem exists_cuts {depth : Nat} (hdepth : 0 < depth) : ∀ (count : Nat) {values : List Value},
    values.length ≤ count → Ascends values →
      ∃ runs, Cuts depth values runs ∧
        ∀ fuel, values.length ≤ fuel → cut depth fuel values = runs.map bucketOf := by
  intro count
  induction count with
  | zero =>
    intro values hcount _
    obtain rfl := List.length_eq_zero_iff.1 (Nat.le_zero.1 hcount)
    refine ⟨[], .done, fun fuel _ => ?_⟩
    cases fuel <;> rfl
  | succ count ih =>
    intro values hcount hsorted
    cases values with
    | nil =>
      refine ⟨[], .done, fun fuel _ => ?_⟩
      cases fuel <;> rfl
    | cons v values =>
      obtain ⟨run, rest, hsplit, hvalues, hne, hlong, hbelow⟩ :=
        splitBucket_run hdepth (List.cons_ne_nil v values) hsorted
      have hlength : (v :: values).length = run.length + rest.length := by
        rw [hvalues, List.length_append]
      have hrun : 0 < run.length := List.length_pos_iff.2 hne
      rw [hvalues] at hsorted
      have hrest : rest.length ≤ count := by omega
      obtain ⟨runs, hcuts, hcut⟩ := ih hrest (List.pairwise_append.1 hsorted).2.1
      refine ⟨run :: runs, hvalues ▸ .run hne hlong hbelow hcuts, fun fuel hfuel => ?_⟩
      obtain ⟨fuel, rfl⟩ : ∃ k, fuel = k + 1 := ⟨fuel - 1, by omega⟩
      rw [cut, hsplit]
      dsimp only
      rw [hcut fuel (by omega), List.map_cons]
      exact List.cons_ne_nil v values

namespace Cuts

variable {depth : Nat} {values : List Value} {runs : List (List Value)}

theorem flatten (h : Cuts depth values runs) : runs.flatten = values := by
  induction h with
  | done => rfl
  | run _ _ _ _ ih => rw [List.flatten_cons, ih]

theorem ne_nil (h : Cuts depth values runs) : ∀ run ∈ runs, run ≠ [] := by
  induction h with
  | done => simp
  | run hne _ _ _ ih => exact List.forall_mem_cons.2 ⟨hne, ih⟩

/-- Each run is below all later ones. -/
theorem apart (h : Cuts depth values runs) : runs.Pairwise Below := by
  induction h with
  | done => exact .nil
  | run _ _ hbelow hrest ih =>
    refine List.pairwise_cons.2 ⟨fun later hlater a ha b hb => hbelow a ha b ?_, ih⟩
    rw [← hrest.flatten]
    exact List.mem_flatten_of_mem hlater hb

theorem eq_nil (h : Cuts depth [] runs) : runs = [] := by
  cases runs with
  | nil => rfl
  | cons run rest =>
    refine absurd ?_ (h.ne_nil run (by simp))
    exact List.flatten_eq_nil_iff.1 h.flatten run (by simp)

/-- All runs but the last have `depth` values, and the last one has some. -/
theorem length_mul_lt (h : Cuts depth values runs) (hdepth : 0 < depth) :
    runs.length * depth < values.length + depth := by
  induction h with
  | done => simpa using hdepth
  | @run run rest runs hne hlong _ hrest ih =>
    have hrun : 0 < run.length := List.length_pos_iff.2 hne
    rw [List.length_cons, Nat.succ_mul, List.length_append]
    rcases hlong with hlong | rfl
    · omega
    · obtain rfl := hrest.eq_nil
      simpa using hrun

end Cuts

/-! ## One bucket -/

section Run

variable {run before after : List Value} {v : Value}

theorem lower_mem (hne : run ≠ []) : (bucketOf run).lower ∈ run := by
  cases run with
  | nil => exact absurd rfl hne
  | cons a rest => exact List.mem_cons_self

theorem upper_bucketOf (front : List Value) (last : Value) :
    (bucketOf (front ++ [last])).upper = last := List.getLastD_concat

theorem upper_mem (hne : run ≠ []) : (bucketOf run).upper ∈ run := by
  rcases List.eq_nil_or_concat' run with rfl | ⟨front, last, rfl⟩
  · exact absurd rfl hne
  · simp [upper_bucketOf]

theorem lower_le (hsorted : Ascends run) (hv : v ∈ run) : (bucketOf run).lower.compare v ≠ .gt := by
  cases run with
  | nil => cases hv
  | cons a rest =>
    rcases List.mem_cons.1 hv with rfl | hv
    · show v.compare v ≠ .gt
      simp
    · exact (List.pairwise_cons.1 hsorted).1 v hv

theorem le_upper (hsorted : Ascends run) (hv : v ∈ run) : v.compare (bucketOf run).upper ≠ .gt := by
  rcases List.eq_nil_or_concat' run with rfl | ⟨front, last, rfl⟩
  · cases hv
  · rw [upper_bucketOf]
    rcases List.mem_append.1 hv with hv | hv
    · exact (List.pairwise_append.1 hsorted).2.2 v hv last (by simp)
    · simp [List.mem_singleton.1 hv]

theorem covers_iff {b : Bucket} :
    b.covers v = true ↔ b.lower.compare v ≠ .gt ∧ v.compare b.upper ≠ .gt := by
  rw [Bucket.covers, Bool.and_eq_true, le_iff, le_iff]

/-- Among values of which the others are below or above its run, a bucket holds just its run. -/
theorem filter_covers (hne : run ≠ []) (hsorted : Ascends run) (hbefore : Below before run)
    (hafter : Below run after) :
    (before ++ (run ++ after)).filter (bucketOf run).covers = run := by
  have hin : run.filter (bucketOf run).covers = run :=
    List.filter_eq_self.2 fun v hv => covers_iff.2 ⟨lower_le hsorted hv, le_upper hsorted hv⟩
  have hbelow : before.filter (bucketOf run).covers = [] := by
    refine List.filter_eq_nil_iff.2 fun v hv hcovers => (covers_iff.1 hcovers).1 ?_
    exact not_lt_of_lt (hbefore v hv _ (lower_mem hne))
  have habove : after.filter (bucketOf run).covers = [] := by
    refine List.filter_eq_nil_iff.2 fun v hv hcovers => (covers_iff.1 hcovers).2 ?_
    exact not_lt_of_lt (hafter _ (upper_mem hne) v hv)
  rw [List.filter_append, List.filter_append, hin, hbelow, habove, List.append_nil, List.nil_append]

theorem length_dedupAdjacent (a : Value) (rest : List Value) :
    (dedupAdjacent (a :: rest)).length = 1 + changes (a :: rest) := by
  induction rest generalizing a with
  | nil => rfl
  | cons b rest ih =>
    rw [dedupAdjacent, changes]
    split
    · rw [ih, Nat.zero_add]
    · rw [List.length_cons, ih, Nat.add_comm]

/-- Ascending values change as often as they have distinct values, less one. -/
theorem one_add_changes (hne : run ≠ []) (hsorted : Ascends run) :
    1 + changes run = run.dedup.length := by
  obtain ⟨a, rest, rfl⟩ := List.exists_cons_of_ne_nil hne
  rw [← length_dedupAdjacent, ← length_sortDistinct, sortDistinct, sort_eq_self hsorted]

theorem toNat_count (hmemory : run.length < UInt64.size) :
    (bucketOf run).count.toNat = run.length := UInt64.toNat_ofNat_of_lt' hmemory

theorem toNat_distinctCount (hne : run ≠ []) (hsorted : Ascends run)
    (hmemory : run.length < UInt64.size) :
    (bucketOf run).distinctCount.toNat = run.dedup.length := by
  have hle : run.dedup.length ≤ run.length := (List.dedup_sublist run).length_le
  rw [bucketOf, one_add_changes hne hsorted]
  exact UInt64.toNat_ofNat_of_lt' (Nat.lt_of_le_of_lt hle hmemory)

end Run

/-! ## All buckets -/

/-- What a histogram of a list of values has to say about them: the buckets are apart, each value
lies in just one of them, and the counts are those of the values between the bounds. -/
structure Describes (h : Histogram) (values : List Value) : Prop where
  bounds : ∀ b ∈ h.buckets, b.lower.compare b.upper ≠ .gt
  ascending : h.buckets.Pairwise fun a b => a.upper.compare b.lower = .lt
  apart : h.buckets.Pairwise fun a b => ∀ v, ¬(a.covers v = true ∧ b.covers v = true)
  one : ∀ v ∈ values, h.buckets.countP (·.covers v) = 1
  count : ∀ b ∈ h.buckets, b.count.toNat = values.countP b.covers
  distinct : ∀ b ∈ h.buckets, b.distinctCount.toNat = (values.filter b.covers).dedup.length
  total : h.total.toNat = values.length

/-- A histogram of values has the same to say about them in another order. -/
theorem Describes.perm {h : Histogram} {values values' : List Value} (hd : h.Describes values)
    (hperm : values.Perm values') : h.Describes values' where
  bounds := hd.bounds
  ascending := hd.ascending
  apart := hd.apart
  one v hv := hd.one v (hperm.mem_iff.2 hv)
  count b hb := by rw [hd.count b hb, hperm.countP_eq]
  distinct b hb := by
    rw [hd.distinct b hb, ← length_sortDistinct, ← length_sortDistinct]
    exact congrArg List.length (sortDistinct_eq fun v => (hperm.filter _).mem_iff)
  total := hd.total.trans hperm.length_eq

/-- Buckets of which each is below the next have no value in common. -/
theorem apart_of_ascending {buckets : List Bucket}
    (h : buckets.Pairwise fun a b => a.upper.compare b.lower = .lt) :
    buckets.Pairwise fun a b => ∀ v, ¬(a.covers v = true ∧ b.covers v = true) := by
  refine h.imp fun hab v hv => ?_
  have hbelow := lt_of_le_of_lt (covers_iff.1 hv.1).2 hab
  exact (covers_iff.1 hv.2).1 (not_lt_of_lt hbelow)

theorem countP_covers_eq_one {buckets : List Bucket} {v : Value}
    (hapart : buckets.Pairwise fun a b => ∀ v, ¬(a.covers v = true ∧ b.covers v = true))
    {b : Bucket} (hb : b ∈ buckets) (hv : b.covers v = true) :
    buckets.countP (·.covers v) = 1 := by
  obtain ⟨front, back, rfl⟩ := List.append_of_mem hb
  obtain ⟨-, hback, hfront⟩ := List.pairwise_append.1 hapart
  have hbefore : front.countP (·.covers v) = 0 :=
    List.countP_eq_zero.2 fun a ha hva => hfront a ha b (by simp) v ⟨hva, hv⟩
  have hafter : back.countP (·.covers v) = 0 :=
    List.countP_eq_zero.2 fun c hc hvc => (List.pairwise_cons.1 hback).1 c hc v ⟨hv, hvc⟩
  rw [List.countP_append, List.countP_cons, hbefore, hafter, if_pos hv]

namespace Cuts

variable {depth : Nat} {values : List Value} {runs : List (List Value)}

/-- The values around a run. -/
theorem around (h : Cuts depth values runs) {run : List Value} (hrun : run ∈ runs) :
    ∃ before after, values = before ++ (run ++ after) ∧ Below before run ∧ Below run after := by
  obtain ⟨front, back, rfl⟩ := List.append_of_mem hrun
  obtain ⟨-, hback, hfront⟩ := List.pairwise_append.1 h.apart
  refine ⟨front.flatten, back.flatten, ?_, fun a ha b hb => ?_, fun a ha b hb => ?_⟩
  · rw [← h.flatten, List.flatten_append, List.flatten_cons]
  · obtain ⟨earlier, hearlier, ha⟩ := List.mem_flatten.1 ha
    exact hfront earlier hearlier run (by simp) a ha b hb
  · obtain ⟨later, hlater, hb⟩ := List.mem_flatten.1 hb
    exact (List.pairwise_cons.1 hback).1 later hlater a ha b hb

theorem mem_of_mem_run (h : Cuts depth values runs) {run : List Value} (hrun : run ∈ runs)
    {v : Value} (hv : v ∈ run) : v ∈ values := by
  rw [← h.flatten]
  exact List.mem_flatten_of_mem hrun hv

theorem sublist (h : Cuts depth values runs) {run : List Value} (hrun : run ∈ runs) :
    run.Sublist values := by
  obtain ⟨before, after, rfl, -⟩ := h.around hrun
  exact ((List.prefix_append run after).sublist).trans (List.suffix_append _ _).sublist

theorem ascends (h : Cuts depth values runs) (hsorted : Ascends values) {run : List Value}
    (hrun : run ∈ runs) : Ascends run := List.Pairwise.sublist (h.sublist hrun) hsorted

theorem filter_eq (h : Cuts depth values runs) (hsorted : Ascends values) {run : List Value}
    (hrun : run ∈ runs) : values.filter (bucketOf run).covers = run := by
  obtain ⟨before, after, hvalues, hbefore, hafter⟩ := h.around hrun
  rw [hvalues]
  exact filter_covers (h.ne_nil run hrun) (h.ascends hsorted hrun) hbefore hafter

theorem rows_eq (h : Cuts depth values runs) (hmemory : values.length < UInt64.size) :
    rows ⟨runs.map bucketOf⟩ = values.length := by
  induction h with
  | done => rfl
  | run _ _ _ _ ih =>
    rw [List.length_append] at hmemory ⊢
    rw [List.map_cons, rows_cons, toNat_count (by omega), ih (by omega)]

/-- **The buckets of the runs describe the values.** -/
theorem describes (h : Cuts depth values runs) (hsorted : Ascends values)
    (hmemory : values.length < UInt64.size) : Describes ⟨runs.map bucketOf⟩ values := by
  have hascending : (runs.map bucketOf).Pairwise fun a b => a.upper.compare b.lower = .lt := by
    refine List.pairwise_map.2 (h.apart.imp_of_mem fun {run later} hrun hlater hbelow => ?_)
    exact hbelow _ (upper_mem (h.ne_nil run hrun)) _ (lower_mem (h.ne_nil later hlater))
  have hshort : ∀ run ∈ runs, run.length < UInt64.size := fun run hrun =>
    Nat.lt_of_le_of_lt (h.sublist hrun).length_le hmemory
  refine ⟨?_, hascending, apart_of_ascending hascending, fun v hv => ?_, ?_, ?_, ?_⟩
  · refine List.forall_mem_map.2 fun run hrun => ?_
    exact lower_le (h.ascends hsorted hrun) (upper_mem (h.ne_nil run hrun))
  · rw [← h.flatten] at hv
    obtain ⟨run, hrun, hv⟩ := List.mem_flatten.1 hv
    have hsorted' := h.ascends hsorted hrun
    exact countP_covers_eq_one (apart_of_ascending hascending) (List.mem_map_of_mem hrun)
      (covers_iff.2 ⟨lower_le hsorted' hv, le_upper hsorted' hv⟩)
  · refine List.forall_mem_map.2 fun run hrun => ?_
    rw [List.countP_eq_length_filter, h.filter_eq hsorted hrun, toNat_count (hshort run hrun)]
  · refine List.forall_mem_map.2 fun run hrun => ?_
    rw [h.filter_eq hsorted hrun, toNat_distinctCount (h.ne_nil run hrun) (h.ascends hsorted hrun)
      (hshort run hrun)]
  · rw [toNat_total, h.rows_eq hmemory, Nat.mod_eq_of_lt hmemory]

/-- The bounds of the buckets are values themselves. -/
theorem bounds_mem (h : Cuts depth values runs) :
    ∀ b ∈ runs.map bucketOf, ∀ v ∈ [b.lower, b.upper], v ∈ values := by
  refine List.forall_mem_map.2 fun run hrun v hv => h.mem_of_mem_run hrun ?_
  rcases List.mem_cons.1 hv with rfl | hv
  · exact lower_mem (h.ne_nil run hrun)
  · rw [List.mem_singleton.1 hv]
    exact upper_mem (h.ne_nil run hrun)

end Cuts

/-! ## Kinds of bounds -/

/-- The kind of a histogram is that of some bound. -/
theorem exists_of_kind?_eq_some {h : Histogram} {kind : Kind} (hkind : h.kind? = some kind) :
    ∃ b ∈ h.buckets, ∃ v ∈ [b.lower, b.upper], v.isNull = false ∧ v.kind = kind := by
  obtain ⟨v, hfind, rfl⟩ := Option.map_eq_some_iff.1 hkind
  obtain ⟨b, hb, hv⟩ := List.mem_flatMap.1 (List.mem_of_find?_eq_some hfind)
  exact ⟨b, hb, v, hv, by simpa using List.find?_some hfind, rfl⟩

/-- Where all bounds that are not the null are of one kind, it is that of the histogram. -/
theorem kind?_eq_some {h : Histogram} {kind : Kind}
    (hall : ∀ b ∈ h.buckets, ∀ v ∈ [b.lower, b.upper], v.isNull = false → v.kind = kind)
    {b : Bucket} (hb : b ∈ h.buckets) {v : Value} (hv : v ∈ [b.lower, b.upper])
    (hnull : v.isNull = false) : h.kind? = some kind := by
  cases hkind : h.kind? with
  | some other =>
    obtain ⟨b', hb', w, hw, hw', rfl⟩ := exists_of_kind?_eq_some hkind
    rw [hall b' hb' w hw hw']
  | none =>
    have hfind := List.find?_eq_none.1 (Option.map_eq_none_iff.1 hkind) v
      (List.mem_flatMap.2 ⟨b, hb, hv⟩)
    simp [hnull] at hfind

/-- A histogram that describes values of one kind, nulls apart, is sound. -/
theorem Describes.sound {h : Histogram} {values : List Value} (hd : h.Describes values)
    (hbounds : ∀ b ∈ h.buckets, ∀ v ∈ [b.lower, b.upper], v ∈ values) {kind : Kind}
    (hkind : ∀ v ∈ values, v.isNull = false → v.kind = kind) : h.Sound where
  ascending := hd.ascending
  bucket b hb := by
    refine ⟨hd.bounds b hb, ?_, fun hcount hzero => ?_, fun v hv hnull => ?_⟩
    · rw [UInt64.le_iff_toNat_le, hd.count b hb, hd.distinct b hb, List.countP_eq_length_filter]
      exact (List.dedup_sublist _).length_le
    · -- a bucket with a value has a distinct value
      have hnone := hd.distinct b hb
      rw [hzero, UInt64.toNat_zero, eq_comm, List.length_eq_zero_iff, List.dedup_eq_nil] at hnone
      have hrows := hd.count b hb
      rw [List.countP_eq_length_filter, hnone] at hrows
      exact hcount (UInt64.toNat_inj.1 hrows)
    · have hall : ∀ b ∈ h.buckets, ∀ v ∈ [b.lower, b.upper], v.isNull = false → v.kind = kind :=
        fun b hb v hv => hkind v (hbounds b hb v hv)
      rw [kind?_eq_some hall hb hv hnull, hall b hb v hv hnull]

/-! ## Histograms of ascending values -/

theorem length_le_depthFor_mul (values : List Value) {count : Nat} (hcount : 0 < count) :
    values.length ≤ depthFor values count * count := by
  have hlt := Nat.lt_mul_div_succ (values.length + count - 1) hcount
  have hle : (values.length + count - 1) / count * count ≤ depthFor values count * count :=
    Nat.mul_le_mul_right count (Nat.le_max_right _ _)
  rw [Nat.mul_add, Nat.mul_one, Nat.mul_comm] at hlt
  omega

/-- **The cutting behind a histogram.** -/
theorem exists_cuts_equiDepth {values : List Value} (hsorted : Ascends values) {count : Nat}
    (hcount : 0 < count) :
    ∃ runs, Cuts (depthFor values count) values runs ∧
      (equiDepth values count).buckets = runs.map bucketOf ∧
      ∀ fuel, values.length ≤ fuel →
        cut (depthFor values count) fuel values = runs.map bucketOf := by
  obtain ⟨runs, hcuts, hcut⟩ :=
    exists_cuts (Nat.le_max_left 1 _) values.length (Nat.le_refl _) hsorted
  refine ⟨runs, hcuts, ?_, hcut⟩
  rw [equiDepth, if_neg (by omega)]
  exact hcut _ (Nat.le_refl _)

theorem length_equiDepth_le {values : List Value} (hsorted : Ascends values) {count : Nat}
    (hcount : 0 < count) : (equiDepth values count).buckets.length ≤ count := by
  obtain ⟨runs, hcuts, hbuckets, -⟩ := exists_cuts_equiDepth hsorted hcount
  have hdepth : 0 < depthFor values count := Nat.le_max_left 1 _
  rw [hbuckets, List.length_map]
  -- one run more than asked for would have more values than there are
  refine Nat.le_of_lt_succ (Nat.lt_of_mul_lt_mul_right (a := depthFor values count) ?_)
  have hlt := hcuts.length_mul_lt hdepth
  have hle := length_le_depthFor_mul values hcount
  rw [Nat.succ_mul, Nat.mul_comm count]
  omega

theorem describes_equiDepth {values : List Value} (hsorted : Ascends values)
    (hmemory : values.length < UInt64.size) {count : Nat} (hcount : 0 < count) :
    (equiDepth values count).Describes values := by
  obtain ⟨runs, hcuts, hbuckets, -⟩ := exists_cuts_equiDepth hsorted hcount
  rw [show equiDepth values count = ⟨runs.map bucketOf⟩ from congrArg Histogram.mk hbuckets]
  exact hcuts.describes hsorted hmemory

theorem bounds_equiDepth_mem {values : List Value} (hsorted : Ascends values) (count : Nat) :
    ∀ b ∈ (equiDepth values count).buckets, ∀ v ∈ [b.lower, b.upper], v ∈ values := by
  rcases Nat.eq_zero_or_pos count with rfl | hcount
  · rw [equiDepth, if_pos rfl]
    simp
  · obtain ⟨runs, hcuts, hbuckets, -⟩ := exists_cuts_equiDepth hsorted hcount
    rw [hbuckets]
    exact hcuts.bounds_mem

/-- The histogram of ascending values of one kind, nulls apart, is sound, also if it is empty. -/
theorem sound_equiDepth {values : List Value} (hsorted : Ascends values)
    (hmemory : values.length < UInt64.size) {kind : Kind}
    (hkind : ∀ v ∈ values, v.isNull = false → v.kind = kind) (count : Nat) :
    (equiDepth values count).Sound := by
  rcases Nat.eq_zero_or_pos count with rfl | hcount
  · rw [equiDepth, if_pos rfl]
    exact ⟨by simp, .nil⟩
  · have hbounds := bounds_equiDepth_mem hsorted count
    exact (describes_equiDepth hsorted hmemory hcount).sound hbounds hkind

/-- Room is made for as many buckets as are asked for, unless there is nothing to put into them. -/
theorem ofSorted_eq_some_iff {room : Nat} {values : List Value} {count : Nat} {h : Histogram} :
    ofSorted room values count = some h ↔
      (values = [] ∨ count ≤ room) ∧ h = equiDepth values count := by
  unfold ofSorted
  split
  · -- both have no buckets here, and no buckets always have room
    rename_i hnothing
    have hnone : equiDepth values count = {} := by
      rcases hnothing with hnil | rfl
      · rw [List.isEmpty_iff.1 hnil]
        unfold equiDepth
        split <;> rfl
      · rfl
    have hfits : values = [] ∨ count ≤ room :=
      hnothing.imp List.isEmpty_iff.1 fun (hzero : count = 0) => hzero ▸ Nat.zero_le room
    rw [hnone, Option.some.injEq, and_iff_right hfits, eq_comm]
  · rename_i hsome
    have hvalues : values ≠ [] := fun hnil => hsome (.inl (List.isEmpty_iff.2 hnil))
    split
    · rename_i hroom
      simp [hvalues, Nat.not_le.2 hroom]
    · rename_i hroom
      simp [Nat.not_lt.1 hroom, eq_comm]

theorem isSome_ofSorted_iff {room : Nat} {values : List Value} {count : Nat} :
    (ofSorted room values count).isSome ↔ values = [] ∨ count ≤ room := by
  rw [Option.isSome_iff_exists]
  simp only [ofSorted_eq_some_iff, exists_and_left, exists_eq, and_true]

/-- **Histograms of ascending values are exact.** There is one just when a list has room for as many
buckets as are asked for, or there are no values. Then the cutting comes to an end, with no more
buckets than asked for; they are apart and in ascending order, each value lies in just one of them,
and the counts are those of the values and the distinct values between the bounds. If the values are
of one kind, nulls apart, the histogram is valid. A list in memory has fewer than `UInt64.size`
values. -/
theorem equiDepth_exact {values : List Value} (hsorted : Ascends values)
    (hmemory : values.length < UInt64.size) {count : Nat} (hcount : 0 < count) (room : Nat) :
    ((ofSorted room values count).isSome ↔ values = [] ∨ count ≤ room) ∧
      ∀ h, ofSorted room values count = some h →
        (∀ fuel, values.length ≤ fuel → cut (depthFor values count) fuel values = h.buckets) ∧
          h.buckets.length ≤ count ∧
          h.Describes values ∧
          ∀ kind, (∀ v ∈ values, v.isNull = false → v.kind = kind) →
            ∀ index, h.validate index = .ok () := by
  refine ⟨isSome_ofSorted_iff, fun h hsome => ?_⟩
  obtain ⟨-, rfl⟩ := ofSorted_eq_some_iff.1 hsome
  refine ⟨fun fuel hfuel => ?_, length_equiDepth_le hsorted hcount,
    describes_equiDepth hsorted hmemory hcount, fun kind hkind index => ?_⟩
  · obtain ⟨runs, -, hbuckets, hcut⟩ := exists_cuts_equiDepth hsorted hcount
    rw [hbuckets, hcut fuel hfuel]
  · exact validate_eq_ok_iff.2 (sound_equiDepth hsorted hmemory hkind count)

/-- One value needs one bucket, but there is no room for as many as a word can count. -/
theorem not_every_count_has_room : Ascends [.int 1] ∧ 0 < UInt64.size - 1 ∧
    UInt64.size - 1 < UInt64.size ∧ ofSorted Bucket.room [.int 1] (UInt64.size - 1) = none := by
  decide +kernel

end Histogram

/-! ## Readings of a meter -/

namespace Sample

/-- Two readings that failed, both zeros, one of them twice, and one that is not a number. -/
def readings : List Value :=
  [.null, .null, .double ⟨0x8000000000000000⟩, .double ⟨0⟩, .double ⟨0⟩,
    .double ⟨0x7ff8000000000000⟩]

-- two readings are enough for a bucket, but the second one takes both positive zeros
example : (Histogram.equiDepth readings 3).buckets.map (fun b => (b.count, b.distinctCount)) =
    [(2, 1), (3, 2), (1, 1)] := by decide +kernel

end Sample

open Sample in
theorem Histogram.equiDepth_exact_readings : Value.Ascends readings ∧
    readings.length < UInt64.size ∧ 0 < 3 ∧ ∃ h, ofSorted Bucket.room readings 3 = some h ∧
      h.buckets.length ≤ 3 ∧ h.Describes readings ∧
      (∀ v ∈ readings, v.isNull = false → v.kind = .double) ∧ h.validate "readings" = .ok () := by
  have hsorted : Value.Ascends readings := by decide +kernel
  have hmemory : readings.length < UInt64.size := by decide
  have hkind : ∀ v ∈ readings, v.isNull = false → v.kind = .double := by decide +kernel
  obtain ⟨hroom, hexact⟩ :=
    Histogram.equiDepth_exact hsorted hmemory (show 0 < 3 by decide) Bucket.room
  obtain ⟨h, hsome⟩ := Option.isSome_iff_exists.1 (hroom.2 (.inr (by decide)))
  obtain ⟨-, hlength, hdescribes, hvalid⟩ := hexact h hsome
  exact ⟨hsorted, hmemory, by decide, h, hsome, hlength, hdescribes, hkind,
    hvalid .double hkind "readings"⟩

end RecordLayer
