import RecordLayer.Candidates
import RecordLayer.Proofs.Plan.Fitting

/-!
# Matched bounds are exact

Matching an index takes conjuncts for the bounds of a scan and leaves the others as a residual
filter. The bounds admit a record exactly if it satisfies the conjuncts that were taken:

* binding a key keeps this for the fields that are already bound, one field at a time from the left;
* narrowing a window of ranks keeps it for the conjuncts that were already looked at. The largest
  rank is left out of account here, since no record of a table has it.

Taken conjuncts and residual together are the whole conjunction.
-/

namespace RecordLayer.PlanningContext

variable {conjuncts : List Filter} {used : List Nat}

section Meaning

variable {value : String → Value} {rankOf : String → Value → UInt64}

/-! ## Taken conjuncts and the others -/

/-- The conjuncts at the given positions hold. -/
def Enforced (conjuncts : List Filter) (used : List Nat) (value : String → Value)
    (rankOf : String → Value → UInt64) : Prop :=
  ∀ i ∈ used, ∀ f, conjuncts[i]? = some f → f.holds value rankOf = true

theorem enforced_nil : Enforced conjuncts [] value rankOf := by simp [Enforced]

theorem enforced_append {as bs : List Nat} : Enforced conjuncts (as ++ bs) value rankOf ↔
    Enforced conjuncts as value rankOf ∧ Enforced conjuncts bs value rankOf := by
  simp only [Enforced, List.mem_append, or_imp, forall_and]

theorem enforced_single {i : Nat} {f : Filter} (h : conjuncts[i]? = some f) :
    Enforced conjuncts [i] value rankOf ↔ f.holds value rankOf = true := by
  simp [Enforced, h]

theorem mem_taken {f : Filter} :
    f ∈ taken conjuncts used ↔ ∃ i ∈ used, conjuncts[i]? = some f := by
  simp [taken, List.mem_map, List.mem_filter, List.mem_zipIdx_iff_getElem?, and_comm]

theorem taken_holds : (taken conjuncts used).all (·.holds value rankOf) = true ↔
    Enforced conjuncts used value rankOf := by
  simp only [List.all_eq_true, mem_taken, Enforced]
  exact ⟨fun h i hi f hf => h f ⟨i, hi, hf⟩, fun h f ⟨i, hi, hf⟩ => h i hi f hf⟩

theorem subset_of_taken {f : Filter} (h : f ∈ taken conjuncts used) : f ∈ conjuncts := by
  obtain ⟨i, -, hi⟩ := mem_taken.1 h
  exact List.mem_of_getElem? hi

theorem taken_of_all (h : ∀ n < conjuncts.length, n ∈ used) : taken conjuncts used = conjuncts := by
  have hall : ∀ p ∈ conjuncts.zipIdx, used.contains p.2 = true := fun p hp => by
    have hlt := (List.getElem?_eq_some_iff.1 (List.mem_zipIdx_iff_getElem?.1 hp)).1
    simpa using h p.2 hlt
  rw [taken, List.filter_eq_self.2 hall, List.zipIdx_map_fst]

/-- The conjuncts at the other positions. -/
def others (conjuncts : List Filter) (used : List Nat) : List Filter :=
  (conjuncts.zipIdx.filter fun (_, i) => !used.contains i).map (·.1)

theorem mem_others {f : Filter} :
    f ∈ others conjuncts used ↔ ∃ i, i ∉ used ∧ conjuncts[i]? = some f := by
  simp [others, List.mem_map, List.mem_filter, List.mem_zipIdx_iff_getElem?, and_comm]

/-- The residual is the conjunction of the other conjuncts, written without `all` if it can be. -/
theorem residual_cases (conjuncts : List Filter) (used : List Nat) :
    (others conjuncts used = [] ∧ residual conjuncts used = .always) ∨
    (∃ f, others conjuncts used = [f] ∧ residual conjuncts used = f) ∨
    residual conjuncts used = .all (others conjuncts used) := by
  unfold residual others
  split
  · rename_i hnone
    exact .inl ⟨hnone, rfl⟩
  · rename_i f hone
    exact .inr (.inl ⟨f, hone, rfl⟩)
  · exact .inr (.inr rfl)

theorem residual_holds : (residual conjuncts used).holds value rankOf =
    (others conjuncts used).all (·.holds value rankOf) := by
  rcases residual_cases conjuncts used with ⟨hnone, hrest⟩ | ⟨f, hone, hrest⟩ | hrest
  · rw [hnone, hrest]
    simp [Filter.always]
  · rw [hone, hrest]
    simp
  · rw [hrest, Filter.holds_all]

theorem residual_over {P R : String → Prop} (h : ∀ f ∈ conjuncts, f.Over P R) :
    (residual conjuncts used).Over P R := by
  have hothers : ∀ f ∈ others conjuncts used, f.Over P R := fun f hf => by
    obtain ⟨i, -, hi⟩ := mem_others.1 hf
    exact h f (List.mem_of_getElem? hi)
  rcases residual_cases conjuncts used with ⟨-, hrest⟩ | ⟨f, hone, hrest⟩ | hrest
  · rw [hrest]
    exact .all (by simp)
  · rw [hrest]
    exact hothers f (by simp [hone])
  · rw [hrest]
    exact .all hothers

/-- **The taken conjuncts and the residual make up the conjunction.** -/
theorem enforced_and_residual : Enforced conjuncts used value rankOf ∧
    (residual conjuncts used).holds value rankOf = true ↔
      (Filter.all conjuncts).holds value rankOf = true := by
  simp only [residual_holds, Filter.holds_all, List.all_eq_true, mem_others]
  constructor
  · rintro ⟨htaken, hothers⟩ f hf
    obtain ⟨i, hi⟩ := List.mem_iff_getElem?.1 hf
    by_cases hused : i ∈ used
    · exact htaken i hused f hi
    · exact hothers f ⟨i, hused, hi⟩
  · intro h
    exact ⟨fun i _ f hf => h f (List.mem_of_getElem? hf),
      fun f ⟨i, _, hf⟩ => h f (List.mem_of_getElem? hf)⟩

theorem taken_and_residual {f : Filter}
    (hf : f.holds value rankOf = true ↔ Enforced conjuncts used value rankOf) :
    (Filter.all [f, residual conjuncts used]).holds value rankOf =
      (Filter.all conjuncts).holds value rankOf := by
  have hboth : Enforced conjuncts used value rankOf ∧
      (residual conjuncts used).holds value rankOf = true ↔
        (Filter.all conjuncts).holds value rankOf = true := enforced_and_residual
  rw [Bool.eq_iff_iff, ← hboth, ← hf]
  simp

/-! ## Keys -/

theorem findComparison_spec {field : String} {accept : Comparator → Bool} {i : Nat}
    {op : Comparator} {v : Value}
    (h : findComparison conjuncts used field accept = some (i, op, v)) :
    conjuncts[i]? = some (.compare field op v) ∧ accept op = true := by
  obtain ⟨⟨f, j⟩, hmem, hf⟩ := List.exists_of_findSome?_eq_some h
  have hget := List.mem_zipIdx_iff_getElem?.1 hmem
  cases f with
  | compare field' op' v' =>
    simp only at hf
    split at hf
    · rename_i hcond
      obtain ⟨rfl, haccept, -⟩ := hcond
      cases hf
      exact ⟨hget, haccept⟩
    · cases hf
  | _ => cases hf

theorem boundOf_lower {op : Comparator} (h : op.isLowerBound = true) (v x : Value) :
    (boundOf op v).admitsAbove x = op.test x v := by
  have hop : op = .gt ∨ op = .ge := by simpa [Comparator.isLowerBound] using h
  rcases hop with rfl | rfl
  · show (v.compare x == .lt) = (x.compare v == .gt)
    rw [Value.compare_swap v x]
    cases x.compare v <;> rfl
  · show (v.compare x != .gt) = (x.compare v != .lt)
    rw [Value.compare_swap v x]
    cases x.compare v <;> rfl

theorem boundOf_upper {op : Comparator} (h : op.isUpperBound = true) (v x : Value) :
    (boundOf op v).admitsBelow x = op.test x v := by
  have hop : op = .lt ∨ op = .le := by simpa [Comparator.isUpperBound] using h
  rcases hop with rfl | rfl <;> rfl

/-- The bound that a comparison puts on its field, if there is one. -/
def boundAt : Option (Nat × Comparator × Value) → Bound
  | some (_, op, v) => boundOf op v
  | none => .unbounded

/-- The position of a comparison, if there is one. -/
def usedAt : Option (Nat × Comparator × Value) → List Nat
  | some (i, _, _) => [i]
  | none => []

theorem lower_exact {field : String} {lower : Option (Nat × Comparator × Value)}
    (h : findComparison conjuncts used field (·.isLowerBound) = lower) :
    (boundAt lower).admitsAbove (value field) = true ↔
      Enforced conjuncts (usedAt lower) value rankOf := by
  cases lower with
  | none => simp [boundAt, usedAt, Bound.admitsAbove, enforced_nil]
  | some found =>
    obtain ⟨i, op, v⟩ := found
    obtain ⟨hi, hop⟩ := findComparison_spec h
    rw [boundAt, usedAt, enforced_single hi, boundOf_lower hop, Filter.holds_compare]

theorem upper_exact {field : String} {upper : Option (Nat × Comparator × Value)}
    (h : findComparison conjuncts used field (·.isUpperBound) = upper) :
    (boundAt upper).admitsBelow (value field) = true ↔
      Enforced conjuncts (usedAt upper) value rankOf := by
  cases upper with
  | none => simp [boundAt, usedAt, Bound.admitsBelow, enforced_nil]
  | some found =>
    obtain ⟨i, op, v⟩ := found
    obtain ⟨hi, hop⟩ := findComparison_spec h
    rw [boundAt, usedAt, enforced_single hi, boundOf_upper hop, Filter.holds_compare]

end Meaning

/-- What binding a field that no equality binds comes to. -/
theorem bindKey_bounds {field : String} (rest : List String) (equal : List Value)
    {lower upper : Option (Nat × Comparator × Value)}
    (h : findComparison conjuncts used field (· == .eq) = none)
    (hlower : findComparison conjuncts used field (·.isLowerBound) = lower)
    (hupper : findComparison conjuncts (usedAt lower ++ used) field (·.isUpperBound) = upper) :
    bindKey conjuncts (field :: rest) { equal } used =
      (⟨equal, boundAt lower, boundAt upper⟩, usedAt upper ++ (usedAt lower ++ used)) := by
  rw [bindKey, h, hlower]
  cases lower with
  | none =>
    rw [usedAt, List.nil_append] at hupper
    simp only [hupper]
    cases upper <;> rfl
  | some found =>
    rw [usedAt, List.singleton_append] at hupper
    simp only [hupper]
    cases upper <;> rfl

/-- **Binding a key is exact:** what it adds to a range admits just the keys whose fields satisfy
the conjuncts that it adds to those in use. -/
theorem bindKey_exact (conjuncts : List Filter) :
    ∀ (fields : List String) (equal : List Value) (used : List Nat),
    ∃ values lower upper new,
      bindKey conjuncts fields { equal } used = (⟨equal ++ values, lower, upper⟩, new ++ used) ∧
      ∀ (value : String → Value) (rankOf : String → Value → UInt64),
        KeyRange.contains ⟨values, lower, upper⟩ (fields.map value) = true ↔
          Enforced conjuncts new value rankOf
  | [], equal, used => by
    refine ⟨[], .unbounded, .unbounded, [], by rw [bindKey, List.append_nil]; rfl,
      fun value rankOf => ?_⟩
    exact iff_of_true rfl enforced_nil
  | field :: rest, equal, used => by
    cases h : findComparison conjuncts used field (· == .eq) with
    | none =>
      -- no equality for the field: bounds on it are the last thing that the range takes
      generalize hlower : findComparison conjuncts used field (·.isLowerBound) = lower
      generalize hupper :
        findComparison conjuncts (usedAt lower ++ used) field (·.isUpperBound) = upper
      refine ⟨[], boundAt lower, boundAt upper, usedAt upper ++ usedAt lower, ?_,
        fun value rankOf => ?_⟩
      · rw [bindKey_bounds rest equal h hlower hupper, List.append_nil, List.append_assoc]
      · rw [enforced_append, ← lower_exact hlower, ← upper_exact hupper, and_comm]
        simp [KeyRange.contains]
    | some found =>
      obtain ⟨i, op, v⟩ := found
      -- an equality fixes the field, and the fields behind it are bound in turn
      obtain ⟨hi, hop⟩ := findComparison_spec h
      obtain ⟨values, lower, upper, new, hbind, hexact⟩ :=
        bindKey_exact conjuncts rest (equal ++ [v]) (i :: used)
      refine ⟨v :: values, lower, upper, new ++ [i], ?_, fun value rankOf => ?_⟩
      · rw [bindKey, h]
        simpa using hbind
      · rw [List.map_cons, KeyRange.contains_cons, Bool.and_eq_true, hexact value rankOf,
          enforced_append, enforced_single hi, and_comm]
        obtain rfl : op = .eq := by simpa using hop
        refine and_congr_right fun _ => ?_
        rw [Filter.holds_compare, Comparator.test, Comparator.accepts, beq_iff_eq, beq_iff_eq,
          Value.compare_eq_iff, eq_comm]

/-- Binding a key uses comparisons of its fields only. -/
theorem bindKey_compares {P : Nat → Prop} (conjuncts : List Filter) :
    ∀ (fields : List String) (range : KeyRange) (used : List Nat),
      (∀ n field op v, field ∈ fields → conjuncts[n]? = some (.compare field op v) → P n) →
      (∀ n ∈ used, P n) → ∀ n ∈ (bindKey conjuncts fields range used).2, P n
  | [], _, _, _, hused => hused
  | field :: rest, range, used, hnew, hused => by
    have hfound : ∀ {used accept i op v},
        findComparison conjuncts used field accept = some (i, op, v) → P i := fun h =>
      hnew _ field _ _ (by simp) (findComparison_spec h).1
    have hcons : ∀ {i : Nat} {used : List Nat}, P i → (∀ n ∈ used, P n) → ∀ n ∈ i :: used, P n :=
      fun hi hused n hn => (List.mem_cons.1 hn).elim (fun heq => heq ▸ hi) (hused n)
    cases h : findComparison conjuncts used field (· == .eq) with
    | some found =>
      -- the lower bound is looked for first, and the upper one among the others
      rw [bindKey, h]
      exact bindKey_compares conjuncts rest _ _
        (fun n f op v hf => hnew n f op v (List.mem_cons_of_mem _ hf)) (hcons (hfound h) hused)
    | none =>
      rw [bindKey, h]
      cases hlower : findComparison conjuncts used field (·.isLowerBound) with
      | none =>
        dsimp only
        cases hupper : findComparison conjuncts used field (·.isUpperBound) with
        | none => exact hused
        | some found => exact hcons (hfound hupper) hused
      | some found =>
        have hused := hcons (hfound hlower) hused
        dsimp only
        cases hupper : findComparison conjuncts (found.1 :: used) field (·.isUpperBound) with
        | none => exact hused
        | some found => exact hcons (hfound hupper) hused

/-! ## Ranks -/

theorem toNat_succRank {n : UInt64} (h : n ≠ maxRank) : (succRank n).toNat = n.toNat + 1 := by
  have hlt : n.toNat < UInt64.size - 1 := by
    have hne : n.toNat ≠ maxRank.toNat := fun heq => h (UInt64.toNat_inj.1 heq)
    have := n.toNat_lt
    simp [maxRank] at hne
    simp only [UInt64.size]
    omega
  rw [succRank, if_neg h, UInt64.toNat_add]
  simp only [UInt64.size] at hlt
  simp
  omega

theorem compare_toNat (a b : UInt64) : compare a b = compare a.toNat b.toNat := by
  show compareOfLessAndEq a b = compareOfLessAndEq a.toNat b.toNat
  unfold compareOfLessAndEq
  simp only [UInt64.lt_iff_toNat_lt, UInt64.toNat_inj]

/-- The window of a rank condition holds just the ranks that the condition accepts. -/
theorem rankWindow_exact {op : Comparator} {n start rank : UInt64} {stop : Option UInt64}
    (h : ScanBounds.rankWindow? op n = some (start, stop)) (hrank : rank ≠ maxRank) :
    inWindow start stop rank = op.testRank rank n := by
  have hbelow : rank.toNat < maxRank.toNat := by
    have hne : rank.toNat ≠ maxRank.toNat := fun heq => hrank (UInt64.toNat_inj.1 heq)
    have hle : rank.toNat < UInt64.size := rank.toNat_lt
    simp only [UInt64.size] at hle
    simp [maxRank] at hne ⊢
    omega
  have hsucc : (succRank n).toNat = if n = maxRank then maxRank.toNat else n.toNat + 1 := by
    split
    · rename_i hn
      rw [succRank, if_pos hn]
    · rename_i hn
      exact toNat_succRank hn
  rw [Comparator.testRank, compare_toNat]
  -- over natural numbers every window is a matter of linear arithmetic
  cases op <;>
    simp only [ScanBounds.rankWindow?, Option.some.injEq, Prod.mk.injEq, reduceCtorEq] at h <;>
    obtain ⟨rfl, rfl⟩ := h <;>
    rw [Bool.eq_iff_iff] <;>
    simp [inWindow, Comparator.accepts, UInt64.le_iff_toNat_le, UInt64.lt_iff_toNat_lt, hsucc,
      Nat.compare_eq_lt, Nat.compare_eq_gt] <;>
    split <;> (try subst n) <;> omega

theorem inWindow_narrow (start start' : UInt64) (stop stop' : Option UInt64) (rank : UInt64) :
    inWindow (if start < start' then start' else start) (earlierStop stop stop') rank =
      (inWindow start stop rank && inWindow start' stop' rank) := by
  have hstart : (if start < start' then start' else start) ≤ rank ↔
      start ≤ rank ∧ start' ≤ rank := by
    simp only [UInt64.le_iff_toNat_le, UInt64.lt_iff_toNat_lt]
    split <;> omega
  have hstop (a b : UInt64) : rank < (if b < a then b else a) ↔ rank < a ∧ rank < b := by
    simp only [UInt64.lt_iff_toNat_lt]
    split <;> omega
  rw [Bool.eq_iff_iff]
  cases stop <;> cases stop' <;>
    simp only [inWindow, earlierStop, Bool.and_eq_true, decide_eq_true_eq, hstart, hstop] <;>
    grind

/-- **Narrowing a window is exact,** whatever rank but the largest the record has. -/
theorem bindRanks_exact (conjuncts : List Filter) (field : String) :
    ∀ (pairs : List (Filter × Nat)) (start : UInt64) (stop : Option UInt64) (used : List Nat),
      (∀ p ∈ pairs, conjuncts[p.2]? = some p.1) →
    ∃ start' stop' new, bindRanks field pairs start stop used = (start', stop', new ++ used) ∧
      ∀ (value : String → Value) (rankOf : String → Value → UInt64),
        rankOf field (value field) ≠ maxRank →
        (inWindow start' stop' (rankOf field (value field)) = true ↔
          inWindow start stop (rankOf field (value field)) = true ∧
            Enforced conjuncts new value rankOf)
  | [], start, stop, used, _ => by
    refine ⟨start, stop, [], rfl, fun value rankOf _ => ?_⟩
    simp [enforced_nil]
  | (f, i) :: rest, start, stop, used, hpairs => by
    have hrest := fun p hp => hpairs p (List.mem_cons_of_mem _ hp)
    have hi : conjuncts[i]? = some f := hpairs (f, i) (by simp)
    have hskip := bindRanks_exact conjuncts field rest start stop used hrest
    cases f with
    | rank f op n =>
      cases hwindow : (if f = field then ScanBounds.rankWindow? op n else none) with
      | none =>
        rw [bindRanks, hwindow]
        exact hskip
      | some window =>
        obtain ⟨s, e⟩ := window
        obtain ⟨start', stop', new, hbind, hexact⟩ := bindRanks_exact conjuncts field rest
          (if start < s then s else start) (earlierStop stop e) (i :: used) hrest
        refine ⟨start', stop', new ++ [i], ?_, fun value rankOf hrank => ?_⟩
        · rw [bindRanks, hwindow]
          simpa using hbind
        · split at hwindow
          · rename_i hfield
            subst hfield
            rw [hexact value rankOf hrank, inWindow_narrow, rankWindow_exact hwindow hrank,
              Bool.and_eq_true, enforced_append, enforced_single hi, Filter.holds_rank, and_assoc,
              and_comm (a := Enforced ..)]
          · cases hwindow
    | _ => exact hskip

/-- Narrowing uses every condition on the field that has a window. -/
theorem bindRanks_used {field : String} {pairs : List (Filter × Nat)} :
    ∀ {start : UInt64} {stop : Option UInt64} {used : List Nat},
      (∀ p ∈ pairs, ∃ op n, p.1 = .rank field op n ∧ op ≠ .ne) →
      (bindRanks field pairs start stop used).2.2 = (pairs.map (·.2)).reverse ++ used := by
  induction pairs with
  | nil => exact fun _ => rfl
  | cons p rest ih =>
    intro start stop used h
    obtain ⟨f, i⟩ := p
    obtain ⟨op, n, rfl, hop⟩ := h (f, i) (by simp)
    obtain ⟨window, hwindow⟩ : ∃ window, ScanBounds.rankWindow? op n = some window := by
      cases op with
      | ne => exact absurd rfl hop
      | _ => exact ⟨_, rfl⟩
    rw [bindRanks, if_pos rfl, hwindow]
    dsimp only
    rw [ih fun p hp => h p (List.mem_cons_of_mem _ hp)]
    simp

/-! ## Scans -/

/-- What a matched scan keeps: its bounds are exact for the conjuncts at its positions. -/
structure Matches (c : PlanningContext) (conjuncts : List Filter) (m : IndexMatch) : Prop where
  index : m.scan.index ∈ c.indexes
  rank : m.scan.bounds.isRanks = true → m.scan.index.isRank = true
  exact : m.scan.Exact
  matched : m.scan.matched = taken conjuncts m.used
  covering : m.scan.covering = false

variable {c : PlanningContext}

/-- A scan by key takes comparisons of key fields, and its range is exact for them. -/
theorem matchValue?_spec {index : Index} {m : IndexMatch}
    (h : matchValue? conjuncts index = some m) :
    ∃ range used, m = ⟨⟨index, .keys range, false, taken conjuncts used⟩, used⟩ ∧
      (∀ n ∈ used, ∃ field ∈ index.keyFields, ∃ op v,
        conjuncts[n]? = some (.compare field op v)) ∧
      ∀ (value : String → Value) (rankOf : String → Value → UInt64),
        range.contains (index.keyFields.map value) = true ↔
          Enforced conjuncts used value rankOf := by
  obtain ⟨values, lower, upper, new, hbind, hexact⟩ := bindKey_exact conjuncts
    index.keyFields [] []
  have hcompares := bindKey_compares conjuncts index.keyFields {} []
    (fun n field op v hf hn => (⟨field, hf, op, v, hn⟩ : ∃ field ∈ index.keyFields, ∃ op v,
      conjuncts[n]? = some (.compare field op v))) (by simp)
  rw [List.append_nil] at hbind
  rw [hbind] at hcompares
  have h' : (if new.isEmpty = true then none else
      some (⟨⟨index, .keys ⟨values, lower, upper⟩, false, taken conjuncts new⟩, new⟩ :
        IndexMatch)) = some m := by
    rw [← h, matchValue?, hbind]
    rfl
  split at h'
  · cases h'
  · obtain rfl := Option.some.inj h'
    exact ⟨_, _, rfl, hcompares, hexact⟩

/-- A scan by rank takes rank conditions, and its window is exact for them. -/
theorem matchRank?_spec {index : Index} {field : String} (hlead : index.leadingField? = some field)
    {m : IndexMatch} (h : matchRank? conjuncts index = some m) :
    ∃ start stop used, m = ⟨⟨index, .ranks start stop, false, taken conjuncts used⟩, used⟩ ∧
      used = (bindRanks field conjuncts.zipIdx 0 none []).2.2 ∧
      ∀ (value : String → Value) (rankOf : String → Value → UInt64),
        rankOf field (value field) ≠ maxRank →
        (inWindow start stop (rankOf field (value field)) = true ↔
          Enforced conjuncts used value rankOf) := by
  obtain ⟨start, stop, new, hbind, hexact⟩ := bindRanks_exact conjuncts field
    conjuncts.zipIdx 0 none [] fun p hp => List.mem_zipIdx_iff_getElem?.1 hp
  have h' : (if new.isEmpty = true then none else
      some (⟨⟨index, .ranks start stop, false, taken conjuncts new⟩, new⟩ : IndexMatch)) =
      some m := by
    rw [← h, matchRank?, hlead]
    simp only [Option.bind_eq_bind, Option.bind_some, hbind, List.append_nil]
  split at h'
  · cases h'
  · obtain rfl := Option.some.inj h'
    refine ⟨_, _, _, rfl, by rw [hbind, List.append_nil], fun value rankOf hmax => ?_⟩
    have hwhole : inWindow 0 none (rankOf field (value field)) = true := by simp [inWindow]
    rw [hexact value rankOf hmax, and_iff_right hwhole]

theorem matches_value {index : Index} {m : IndexMatch} (hi : index ∈ c.indexes)
    (h : matchValue? conjuncts index = some m) : c.Matches conjuncts m := by
  obtain ⟨range, used, rfl, -, hexact⟩ := matchValue?_spec h
  refine ⟨hi, nofun, fun value rankOf _ => ?_, rfl, rfl⟩
  rw [Bool.eq_iff_iff, taken_holds]
  exact hexact value rankOf

theorem matches_rank {index : Index} {m : IndexMatch} (hi : index ∈ c.indexes)
    (hrank : index.isRank = true) (hsingle : index.keyFields.length = 1)
    (h : matchRank? conjuncts index = some m) : c.Matches conjuncts m := by
  obtain ⟨field, hkey⟩ := List.length_eq_one_iff.1 hsingle
  have hlead : index.leadingField? = some field := by rw [Index.leadingField?, hkey]; rfl
  obtain ⟨start, stop, used, rfl, -, hexact⟩ := matchRank?_spec hlead h
  refine ⟨hi, fun _ => hrank, fun value rankOf hmax => ?_, rfl, rfl⟩
  rw [Bool.eq_iff_iff, taken_holds, ← hexact value rankOf (hmax field)]
  simp [IndexScan.admits, hkey]

/-- **The bounds of a matched scan are exact for the conjuncts that they take.** -/
theorem matches_index (hc : c.catalog.Sound)
    (ht : c.catalog.recordType? c.recordType.name = some c.recordType) {index : Index}
    {m : IndexMatch} (hi : index ∈ c.indexes) (h : matchIndex? conjuncts index = some m) :
    c.Matches conjuncts m := by
  unfold matchIndex? at h
  split at h
  · rename_i hrank
    have hsingle := (hc.fits ht (Catalog.mem_plannableIndexes.1 hi).1).rank hrank
    cases hm : matchRank? conjuncts index with
    | some m' =>
      rw [hm] at h
      obtain rfl := Option.some.inj h
      exact matches_rank hi hrank hsingle hm
    | none =>
      rw [hm] at h
      exact matches_value hi h
  · exact matches_value hi h

/-! ## What scans take -/

/-- A matched scan takes some of the conjuncts, and is not covering yet. -/
structure Takes (conjuncts : List Filter) (m : IndexMatch) : Prop where
  matched : m.scan.matched = taken conjuncts m.used
  used : m.used ≠ []
  valid : ∀ i ∈ m.used, i < conjuncts.length
  covering : m.scan.covering = false

theorem takes_value {index : Index} {m : IndexMatch} (h : matchValue? conjuncts index = some m) :
    Takes conjuncts m := by
  have hplaces : ∀ i ∈ (bindKey conjuncts index.keyFields {} []).2, i < conjuncts.length :=
    bindKey_compares conjuncts index.keyFields {} []
      (fun n field op v _ hn => (List.getElem?_eq_some_iff.1 hn).1) (by simp)
  unfold matchValue? at h
  generalize bindKey conjuncts index.keyFields {} [] = bound at h hplaces
  dsimp only at h
  split at h
  · cases h
  · rename_i hne
    obtain rfl := Option.some.inj h
    exact ⟨rfl, by simpa using hne, hplaces, rfl⟩

/-- Narrowing uses only places that it is given. -/
theorem bindRanks_places {P : Nat → Prop} {field : String} {pairs : List (Filter × Nat)}
    {start : UInt64} {stop : Option UInt64} {used : List Nat} (hpairs : ∀ pair ∈ pairs, P pair.2)
    (hused : ∀ n ∈ used, P n) : ∀ n ∈ (bindRanks field pairs start stop used).2.2, P n := by
  fun_induction bindRanks field pairs start stop used with
  | case1 => exact hused
  | case2 _ _ _ _ _ _ _ _ _ _ _ ih =>
    obtain ⟨hfirst, hrest⟩ := List.forall_mem_cons.1 hpairs
    exact ih hrest (List.forall_mem_cons.2 ⟨hfirst, hused⟩)
  | case3 _ _ _ _ _ _ _ _ _ ih | case4 _ _ _ _ _ _ ih =>
    exact ih (List.forall_mem_cons.1 hpairs).2 hused

theorem takes_rank {index : Index} {m : IndexMatch} (h : matchRank? conjuncts index = some m) :
    Takes conjuncts m := by
  obtain ⟨field, -, h⟩ := Option.bind_eq_some_iff.1 h
  have hplaces : ∀ i ∈ (bindRanks field conjuncts.zipIdx 0 none []).2.2, i < conjuncts.length :=
    bindRanks_places (fun pair hpair => (List.mem_zipIdx' hpair).1) (by simp)
  generalize bindRanks field conjuncts.zipIdx 0 none [] = bound at h hplaces
  dsimp only at h
  split at h
  · cases h
  · rename_i hne
    obtain rfl := Option.some.inj h
    exact ⟨rfl, by simpa using hne, hplaces, rfl⟩

theorem takes_index {index : Index} {m : IndexMatch} (h : matchIndex? conjuncts index = some m) :
    Takes conjuncts m := by
  unfold matchIndex? at h
  split at h
  · rcases Option.or_eq_some_iff.1 h with h | ⟨-, h⟩
    · exact takes_rank h
    · exact takes_value h
  · exact takes_value h

end RecordLayer.PlanningContext
