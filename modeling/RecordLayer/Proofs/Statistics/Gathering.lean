import RecordLayer.Plan.Estimate
import RecordLayer.Proofs.Filter.Evaluation
import RecordLayer.Proofs.Histogram.Counting
import RecordLayer.Proofs.Store.Replay

/-!
# Gathering statistics

A snapshot keeps a histogram of an index just if the source has one that is valid, fits the type of
the leading field and has a bucket; what is refused is reported. `gather_eq` says so for all indexes
at once.

Validation looks at one bucket or two at a time, so it does not bound the rows of a histogram. **The
sums that estimates start from are exact if and only if no acceptable histogram of the source
describes as many as `UInt64.size` rows.** With more rows a sum loses a multiple of that number, and
a histogram that describes just so many rows is taken for an empty one.
-/

namespace RecordLayer.StatisticsSnapshot

variable {source : StatisticsSource} {t : RecordType} {index : Index} {indexes : List Index}
  {h : Histogram}

/-! ## What is kept -/

/-- What a snapshot keeps of an index. -/
def kept? (source : StatisticsSource) (t : RecordType) (index : Index) :
    Option (Index × Histogram) :=
  match fetchHistogram source t index with
  | .ok (some h) => if h.buckets.isEmpty then none else some (index, h)
  | _ => none

/-- What a snapshot reports about an index. -/
def refused? (source : StatisticsSource) (t : RecordType) (index : Index) :
    Option StatisticsError :=
  match fetchHistogram source t index with
  | .ok _ => none
  | .error e => some e

theorem foldl_addHistogram (source : StatisticsSource) (t : RecordType) (indexes : List Index) :
    ∀ s : StatisticsSnapshot, indexes.foldl (addHistogram source t) s =
      { s with
        histograms := s.histograms ++ indexes.filterMap (kept? source t)
        rejected := s.rejected ++ indexes.filterMap (refused? source t) } := by
  -- what was gathered so far is general, as every index adds to it
  induction indexes with
  | nil => simp
  | cons index rest ih =>
    intro s
    rw [List.foldl_cons, ih, List.filterMap_cons, List.filterMap_cons, addHistogram, kept?,
      refused?]
    cases fetchHistogram source t index with
    | error e => simp
    | ok fetched =>
      cases fetched with
      | none => rfl
      | some h => by_cases hempty : h.buckets = [] <;> simp [hempty]

/-- **What a snapshot holds,** index by index. -/
theorem gather_eq (source : StatisticsSource) (t : RecordType) (indexes : List Index) :
    (gather source t indexes).histograms = indexes.filterMap (kept? source t) ∧
      ∀ table, fetchTable source t = .ok table → (gather source t indexes).table = table ∧
        (gather source t indexes).rejected = indexes.filterMap (refused? source t) := by
  rw [gather, foldl_addHistogram]
  cases fetchTable source t with
  | error e => exact ⟨rfl, fun table htable => by cases htable⟩
  | ok table =>
    refine ⟨rfl, fun table' htable => ?_⟩
    obtain rfl := Except.ok.inj htable
    exact ⟨rfl, rfl⟩

theorem checkHistogram_eq_ok_iff : checkHistogram t index h = .ok () ↔ h.Sound ∧ ∀ field kind,
    (index.leadingField?.bind fun name => t.fields.find? (·.name == name)) = some field →
      h.kind? = some kind → field.type.accepts kind = true := by
  unfold checkHistogram
  rw [bind_eq_ok_iff]
  constructor
  · rintro ⟨_, hvalid, hkind⟩
    refine ⟨Histogram.validate_eq_ok_iff.1 hvalid, fun field kind hfield hsome => ?_⟩
    simp only [hfield, hsome] at hkind
    split at hkind
    · assumption
    · cases hkind
  · rintro ⟨hsound, hkind⟩
    refine ⟨(), Histogram.validate_eq_ok_iff.2 hsound, ?_⟩
    dsimp only
    split
    · rename_i field kind hfield hsome
      exact if_pos (hkind field kind hfield hsome)
    · -- without a field or a bound there is nothing to compare
      rfl

theorem fetchHistogram_eq_ok_some_iff : fetchHistogram source t index = .ok (some h) ↔
    source.histogram index = .ok (some h) ∧ checkHistogram t index h = .ok () := by
  unfold fetchHistogram
  rw [bind_eq_ok_iff]
  constructor
  · rintro ⟨fetched, hfetched, hcheck⟩
    cases fetched with
    | none => cases hcheck
    | some g =>
      obtain ⟨_, hcheck, hok⟩ := bind_eq_ok_iff.1 hcheck
      cases hok
      exact ⟨hfetched, hcheck⟩
  · rintro ⟨hfetched, hcheck⟩
    exact ⟨some h, hfetched, bind_eq_ok_iff.2 ⟨(), hcheck, rfl⟩⟩

theorem kept?_eq_some_iff {p : Index × Histogram} : kept? source t index = some p ↔
    p.1 = index ∧ fetchHistogram source t index = .ok (some p.2) ∧ p.2.buckets ≠ [] := by
  obtain ⟨i, h⟩ := p
  unfold kept?
  constructor
  · intro hkept
    split at hkept
    · rename_i g hfetch
      split at hkept
      · cases hkept
      · rename_i hne
        cases hkept
        exact ⟨rfl, hfetch, by simpa using hne⟩
    · cases hkept
  · rintro ⟨rfl, hfetch, hne⟩
    rw [hfetch]
    exact if_neg (by simpa using hne)

/-- **A snapshot keeps the acceptable histograms of the source,** those without buckets apart. -/
theorem mem_gather_histograms {p : Index × Histogram} :
    p ∈ (gather source t indexes).histograms ↔
      p.1 ∈ indexes ∧ source.histogram p.1 = .ok (some p.2) ∧ checkHistogram t p.1 p.2 = .ok () ∧
        p.2.buckets ≠ [] := by
  rw [(gather_eq source t indexes).1, List.mem_filterMap]
  simp only [kept?_eq_some_iff, fetchHistogram_eq_ok_some_iff, and_assoc]
  constructor
  · rintro ⟨i, hi, rfl, hp⟩
    exact ⟨hi, hp⟩
  · rintro ⟨hi, hp⟩
    exact ⟨p.1, hi, rfl, hp⟩

theorem mem_of_fieldHistogram? {s : StatisticsSnapshot} {field : String}
    (hfield : s.fieldHistogram? field = some h) : ∃ index, (index, h) ∈ s.histograms := by
  obtain ⟨⟨index, g⟩, hfind, rfl⟩ := Option.map_eq_some_iff.1 hfield
  exact ⟨index, List.mem_of_find?_eq_some hfind⟩

/-! ## Sums -/

/-- **Sums are exact just where the source keeps to 64 bits.** All histograms that a snapshot keeps
have an exact sum if and only if every histogram of the source that would be accepted describes
fewer than `UInt64.size` rows. Each histogram that is kept is sound, and it is taken for an empty
one if and only if its number of rows is a multiple of `UInt64.size`; if its sum is exact, that is
only if it has no rows. Estimates read no other histograms, whatever the constants are. -/
theorem gather_exact_iff (source : StatisticsSource) (t : RecordType) (indexes : List Index) :
    ((∀ p ∈ (gather source t indexes).histograms, p.2.Exact) ↔
        ∀ index ∈ indexes, ∀ h, source.histogram index = .ok (some h) →
          checkHistogram t index h = .ok () → h.rows < UInt64.size) ∧
      (∀ p ∈ (gather source t indexes).histograms, p.2.Sound ∧
        (p.2.total = 0 ↔ UInt64.size ∣ p.2.rows) ∧
        (p.2.Exact → (p.2.total = 0 ↔ ∀ b ∈ p.2.buckets, b.count = 0))) ∧
      ∀ (m : CostModel), m.snapshot = gather source t indexes → ∀ field h,
        m.snapshot.fieldHistogram? field = some h →
          ∃ index, (index, h) ∈ (gather source t indexes).histograms := by
  refine ⟨⟨fun hexact index hindex h hoffered hcheck => ?_, fun hrows p hp => ?_⟩, fun p hp => ?_,
    fun m hm field h hfield => mem_of_fieldHistogram? (hm ▸ hfield)⟩
  · by_cases hempty : h.buckets = []
    · -- it is accepted and passed over, but it has no rows either
      rw [Histogram.rows, hempty]
      decide
    · refine Histogram.exact_iff.1 (hexact (index, h) (mem_gather_histograms.2 ?_))
      exact ⟨hindex, hoffered, hcheck, hempty⟩
  · -- what was kept was offered for one of the indexes and has passed the check
    obtain ⟨hindex, hoffered, hcheck, -⟩ := mem_gather_histograms.1 hp
    exact Histogram.exact_iff.2 (hrows p.1 hindex p.2 hoffered hcheck)
  · obtain ⟨-, -, hcheck, -⟩ := mem_gather_histograms.1 hp
    refine ⟨(checkHistogram_eq_ok_iff.1 hcheck).1, p.2.total_eq_zero_iff, fun hexact => ?_⟩
    rw [← Histogram.rows_eq_zero_iff, ← hexact.2, ← UInt64.toNat_inj, UInt64.toNat_zero]

end RecordLayer.StatisticsSnapshot

/-! ## A histogram of too many rows -/

namespace RecordLayer.Sample

open StatisticsSnapshot

/-- Sizes below ten for one half of very many items, larger ones for the other half. -/
def halves : Histogram :=
  ⟨[⟨.int 0, .int 9, 0x8000000000000000, 5⟩, ⟨.int 10, .int 19, 0x8000000000000000, 1⟩]⟩

/-- A source for which each index has this one histogram. -/
def sourceOf (h : Histogram) : StatisticsSource := ⟨fun _ => .ok none, fun _ => .ok (some h)⟩

/-- **A histogram that is kept may describe rows and yet be taken for an empty one.** No sum that
notices when it leaves 64 bits is there, and every share is zero. -/
theorem halves_not_exact :
    (gather (sourceOf halves) items [bySize]).histograms = [(bySize, halves)] ∧
      (gather (sourceOf halves) items [bySize]).rejected = [] ∧ halves.rows = UInt64.size ∧
      halves.total = 0 ∧ halves.total? = none ∧ ¬halves.Exact ∧
      (∀ v, halves.equalityShare v = 0) ∧ ∀ lower upper, halves.rangeShare lower upper = 0 := by
  have htotal : halves.total = 0 := by decide +kernel
  have hrows : halves.rows = UInt64.size := by decide +kernel
  refine ⟨by decide +kernel, by decide +kernel, hrows, htotal, by decide +kernel, fun h => ?_,
    fun v => if_pos htotal, fun lower upper => if_pos htotal⟩
  exact absurd (Histogram.exact_iff.1 h) (by rw [hrows]; decide)

/-- Both buckets with an item less are counted exactly. -/
def fewer : Histogram :=
  ⟨[⟨.int 0, .int 9, 0x7fffffffffffffff, 5⟩, ⟨.int 10, .int 19, 0x7fffffffffffffff, 1⟩]⟩

theorem gather_exact_iff_fewer :
    (∀ index ∈ [bySize], ∀ h, (sourceOf fewer).histogram index = .ok (some h) →
        checkHistogram items index h = .ok () → h.rows < UInt64.size) ∧
      (bySize, fewer) ∈ (gather (sourceOf fewer) items [bySize]).histograms ∧ fewer.Exact ∧
      fewer.Sound ∧ fewer.total ≠ 0 := by
  have hmem : (bySize, fewer) ∈ (gather (sourceOf fewer) items [bySize]).histograms := by
    decide +kernel
  have hrows : ∀ index ∈ [bySize], ∀ h, (sourceOf fewer).histogram index = .ok (some h) →
      checkHistogram items index h = .ok () → h.rows < UInt64.size := by
    intro index _ h hoffered _
    cases hoffered
    decide +kernel
  obtain ⟨hexact, hkept, -⟩ := gather_exact_iff (sourceOf fewer) items [bySize]
  obtain ⟨hsound, -, hempty⟩ := hkept _ hmem
  have hcounts := hexact.2 hrows _ hmem
  refine ⟨hrows, hmem, hcounts, hsound, fun hzero => ?_⟩
  exact absurd ((hempty hcounts).1 hzero _ List.mem_cons_self) (by decide)

end RecordLayer.Sample
