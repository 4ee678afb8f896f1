import RecordLayer.Proofs.KeyRange

/-!
# A scan that looks for its place anew

A scan of an index keeps nothing but the entry it gave last, and for every row it searches the
entries again from there. `EntryScan.rest` are the entries that it has still to give: those of its
range that the search does not pass over. Every pull gives the first of them and leaves the others,
so a scan is a list that is taken apart.

* What the search passes over is the front of the ascending entries.
* No entry of the range is in front of the start of the range, so a scan begins with all of them.
* Behind the entry given last are just the others that were left.
-/

namespace RecordLayer

namespace StoreView

/-! ## The entries still to give -/

/-- The entries of a range that a scan has still to give. -/
def EntryScan.rest (scan : EntryScan) (range : KeyRange) (entries : List EntryKey) :
    List EntryKey :=
  (entries.filter fun e => range.contains e.key).filter fun e => !scan.passes range e

/-- The scan gave entries of its range only. -/
def EntryScan.Within (scan : EntryScan) (range : KeyRange) : Prop :=
  ∀ last, scan.after = some last → range.contains last.key = true

variable {scan : EntryScan} {range : KeyRange} {entries rest : List EntryKey} {e f : EntryKey}

theorem EntryScan.within_start (range : KeyRange) : ({} : EntryScan).Within range := by
  intro last hlast
  cases hlast

/-- With an entry, the search passes over all before it. -/
theorem EntryScan.passes_of_lt (hef : e.compare f = .lt) (hf : scan.passes range f = true) :
    scan.passes range e = true := by
  obtain ⟨_ | last, ended⟩ := scan
  · have hf : f.compare ⟨range.startKey, .null⟩ = .lt := by simpa [passes] using hf
    simpa [passes] using EntryKey.lt_trans hef hf
  · have hf : f.compare last ≠ .gt := by simpa [passes] using hf
    have hlt : e.compare last = .lt := by
      rw [← EntryKey.compare_def] at hef hf ⊢
      exact Std.TransCmp.lt_of_lt_of_isLE hef (Ordering.ne_gt_iff_isLE.1 hf)
    simp [passes, hlt]

theorem dropWhile_eq_filter {α : Type} {R : α → α → Prop} {p : α → Bool} {l : List α}
    (h : l.Pairwise R) (hp : ∀ a b, R a b → p b = true → p a = true) :
    l.dropWhile p = l.filter fun a => !p a := by
  induction l with
  | nil => rfl
  | cons a l ih =>
    obtain ⟨ha, hl⟩ := List.pairwise_cons.1 h
    cases hpa : p a with
    | true => rw [List.dropWhile_cons_of_pos hpa, List.filter_cons_of_neg (by simp [hpa]), ih hl]
    | false =>
      have hnone : ∀ b ∈ a :: l, (!p b) = true := by
        intro b hb
        rcases List.mem_cons.1 hb with rfl | hb
        · simp [hpa]
        · cases hpb : p b with
          | false => rfl
          | true => rw [hp a b (ha b hb) hpb] at hpa; cases hpa
      rw [List.dropWhile_cons_of_neg (by simp [hpa]), List.filter_eq_self.2 hnone]

/-- What the search does not pass over is not before the start of the range. -/
theorem EntryScan.start_le (hwithin : scan.Within range) (h : scan.passes range e = false) :
    Value.compareLists e.key range.startKey ≠ .lt := by
  intro hlt
  obtain ⟨_ | last, ended⟩ := scan
  · simp [passes, EntryKey.compare, hlt] at h
  · have hgt : e.compare last = .gt := by simpa [passes] using h
    have hle : Value.compareLists last.key e.key ≠ .gt :=
      compareLists_of_compare_lt (by rw [EntryKey.compare_swap, hgt]; rfl)
    have hbefore : Value.compareLists last.key range.startKey = .lt := by
      rw [Value.compareLists_eq] at hle hlt ⊢
      exact Std.TransCmp.lt_of_isLE_of_lt (Ordering.ne_gt_iff_isLE.1 hle) hlt
    exact KeyRange.compareLists_startKey_ne_lt (hwithin last rfl) hbefore

/-- The search finds the first entry that is still to give. -/
theorem EntryScan.search_eq (h : EntryKey.Ascending entries) (hwithin : scan.Within range) :
    firstWithin? range (entries.dropWhile (scan.passes range)) =
      (scan.rest range entries).head? := by
  rw [dropWhile_eq_filter h fun e f => passes_of_lt, firstWithin?_eq, rest, List.filter_filter,
    List.filter_filter]
  · simp only [Bool.and_comm]
  · exact List.Pairwise.sublist List.filter_sublist h
  · intro e he
    exact start_le hwithin (by simpa using (List.mem_filter.1 he).2)

/-- A scan that has not given any entry has all of its range to give. -/
theorem EntryScan.rest_start (range : KeyRange) (entries : List EntryKey) :
    ({} : EntryScan).rest range entries = entries.filter fun e => range.contains e.key := by
  refine List.filter_eq_self.2 fun e he => ?_
  have hstart := KeyRange.compareLists_startKey_ne_lt (List.mem_filter.1 he).2
  have hnot : e.compare ⟨range.startKey, .null⟩ ≠ .lt := by
    unfold EntryKey.compare
    cases hc : Value.compareLists e.key range.startKey with
    | lt => exact absurd hc hstart
    | eq => exact Value.compare_null_ne_lt _
    | gt => simp
  simpa [passes] using hnot

/-- Behind the entry given are just the others that were left. -/
theorem EntryScan.rest_after (h : EntryKey.Ascending entries)
    (hrest : scan.rest range entries = e :: rest) :
    ({ after := some e } : EntryScan).rest range entries = rest := by
  have hascending : EntryKey.Ascending (e :: rest) := by
    rw [← hrest]
    exact List.Pairwise.sublist (List.filter_sublist.trans List.filter_sublist) h
  obtain ⟨hbehind, -⟩ := List.pairwise_cons.1 hascending
  have hnot : scan.passes range e = false := by
    have : e ∈ scan.rest range entries := by simp [hrest]
    simpa using (List.mem_filter.1 this).2
  -- what is behind `e` was not passed over before either
  have hboth : ∀ f, (!({ after := some e } : EntryScan).passes range f) =
      ((!({ after := some e } : EntryScan).passes range f) && !scan.passes range f) := by
    intro f
    cases hf : scan.passes range f with
    | false => simp
    | true =>
      have hfe : f.compare e ≠ .gt := by
        intro hgt
        have hef : e.compare f = .lt := by rw [EntryKey.compare_swap, hgt]; rfl
        rw [passes_of_lt hef hf] at hnot
        cases hnot
      simp [passes, hfe]
  rw [EntryScan.rest, List.filter_congr fun f _ => hboth f, ← List.filter_filter]
  show (scan.rest range entries).filter _ = rest
  rw [hrest, List.filter_cons_of_neg (by simp [passes, EntryKey.compare_self]),
    List.filter_eq_self]
  intro f hf
  have hgt : f.compare e = .gt := by rw [EntryKey.compare_swap, hbehind f hf]; rfl
  simp [passes, hgt]

/-! ## Pulls -/

section Pulls

variable {v : StoreView} {t : RecordType} {index : Index}

/-- A scan of an index reads one table. -/
theorem entriesOf_congr {v v' : StoreView} {index : Index}
    (h : v.table? index.recordType = v'.table? index.recordType) (t : RecordType)
    (range : KeyRange) : v.entriesOf t index range = v'.entriesOf t index range := by
  have hpull : v.pullEntry t index range = v'.pullEntry t index range := by
    funext scan
    unfold pullEntry
    rw [h]
  have hpulls : ∀ count scan,
      v.pullEntries t index range count scan = v'.pullEntries t index range count scan := by
    intro count
    induction count with
    | zero => exact fun _ => rfl
    | succ count ih =>
      intro scan
      rw [pullEntries, pullEntries, hpull]
      exact congrArg _ (ih _)
  have hcount : v.entryCount index = v'.entryCount index := by
    unfold entryCount entryKeys
    rw [h]
  rw [entriesOf, entriesOf, hcount, hpulls]

/-- A scan that has ended gives nothing more. -/
theorem pullEntries_ended (count : Nat) (after : Option EntryKey) :
    v.pullEntries t index range count ⟨after, true⟩ = List.replicate count none := by
  induction count with
  | zero => rfl
  | succ count ih =>
    rw [pullEntries, pullEntry, if_pos rfl]
    exact congrArg _ ih

/-- Without a table there is nothing to give. -/
theorem pullEntries_of_table_none (h : v.table? index.recordType = none) (count : Nat)
    (scan : EntryScan) :
    v.pullEntries t index range count scan = List.replicate count none := by
  have hpull : v.pullEntry t index range scan = (none, scan) := by
    unfold pullEntry
    rw [h]
    split <;> rfl
  induction count with
  | zero => rfl
  | succ count ih =>
    rw [pullEntries, hpull]
    exact congrArg _ ih

variable {table : Table} {data : IndexData}

/-- **A pull gives the first entry that is left.** -/
theorem pullEntry_cons (htable : v.table? index.recordType = some table)
    (hdata : table.data? index = some data) (hascending : EntryKey.Ascending data.entries)
    (hrow : ∀ e ∈ data.entries, ∃ row, entryRow table t index e = .entry row)
    (hended : scan.ended = false) (hwithin : scan.Within range)
    (hrest : scan.rest range data.entries = e :: rest) :
    v.pullEntry t index range scan = (some (entryRow table t index e), { after := some e }) := by
  have he : e ∈ data.entries := by
    have : e ∈ scan.rest range data.entries := by simp [hrest]
    exact (List.mem_filter.1 (List.mem_filter.1 this).1).1
  obtain ⟨row, hrow⟩ := hrow e he
  unfold pullEntry
  simp only [hended, htable, hdata, EntryScan.search_eq hascending hwithin, hrest, List.head?_cons,
    hrow]
  rfl

/-- A pull from a scan with nothing left ends it. -/
theorem pullEntry_nil (htable : v.table? index.recordType = some table)
    (hdata : table.data? index = some data) (hascending : EntryKey.Ascending data.entries)
    (hended : scan.ended = false) (hwithin : scan.Within range)
    (hrest : scan.rest range data.entries = []) :
    v.pullEntry t index range scan = (none, { ended := true }) := by
  unfold pullEntry
  simp only [hended, htable, hdata, EntryScan.search_eq hascending hwithin, hrest, List.head?_nil]
  rfl

/-- **Pulls take the entries that are left one after the other,** and then give nothing. -/
theorem pullEntries_eq (htable : v.table? index.recordType = some table)
    (hdata : table.data? index = some data) (hascending : EntryKey.Ascending data.entries)
    (hrow : ∀ e ∈ data.entries, ∃ row, entryRow table t index e = .entry row) (count : Nat) :
    ∀ scan : EntryScan, scan.ended = false → scan.Within range →
      v.pullEntries t index range count scan =
        (List.range count).map fun k =>
          (scan.rest range data.entries)[k]?.map (entryRow table t index) := by
  induction count with
  | zero => exact fun _ _ _ => rfl
  | succ count ih =>
    intro scan hended hwithin
    rw [pullEntries, List.range_succ_eq_map, List.map_cons, List.map_map]
    cases hrest : scan.rest range data.entries with
    | nil =>
      rw [pullEntry_nil htable hdata hascending hended hwithin hrest]
      simp [pullEntries_ended, Function.comp_def, List.map_const']
    -- what is pulled next is the first entry behind the last one, so the scan goes on from there
    | cons e rest =>
      have hnext : EntryScan.Within { after := some e } range := by
        intro last hlast
        obtain rfl := Option.some.inj hlast
        have : e ∈ scan.rest range data.entries := by simp [hrest]
        exact (List.mem_filter.1 (List.mem_filter.1 this).1).2
      rw [pullEntry_cons htable hdata hascending hrow hended hwithin hrest]
      dsimp only
      rw [ih _ rfl hnext, EntryScan.rest_after hascending hrest]
      rfl

end Pulls

end StoreView

end RecordLayer
