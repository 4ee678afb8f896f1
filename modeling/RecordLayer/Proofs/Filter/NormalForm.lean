import RecordLayer.Proofs.Filter.Normal

/-!
# Normal forms

`Filter.Normal` says what a normal filter looks like, without regard to how it is reached: negations
stand in front of lists only, lists have at least two values in ascending order, a combination has
at least two children that differ in their canonical texts and none of its own kind, and a constant
is a whole filter and never a part of one. **Normalizing gives a normal filter that is no deeper,
and leaves the normal filters, and no others, as they are.**

One pass from the leaves up is enough because of what a combination makes of children that are
normal. The only child that is left may be a combination of the other kind, which is then flattened
one level further up; it is never a constant, since an absorbing one takes the place of the whole
combination and a neutral one has no children to contribute. Conjunctions and disjunctions differ in
nothing but their kind here, so `combine` stands for both.
-/

namespace RecordLayer.Filter

/-! ## Normal filters -/

/-- Whether a filter is a conjunction. -/
def isConjunction : Filter → Bool
  | .all _ => true
  | _ => false

/-- Whether a filter is a disjunction. -/
def isDisjunction : Filter → Bool
  | .any _ => true
  | _ => false

/-- At least two values, strictly ascending. -/
def Listed (values : List Value) : Prop :=
  2 ≤ values.length ∧ values.Pairwise fun a b => a.compare b = .lt

/-- At least two filters with different canonical texts. -/
def Various (fs : List Filter) : Prop := 2 ≤ fs.length ∧ (fs.map canonical).Nodup

/-- A normal filter that is not constant. -/
inductive Proper : Filter → Prop
  | compare (field : String) (op : Comparator) (value : Value) : Proper (.compare field op value)
  | rank (field : String) (op : Comparator) (n : UInt64) : Proper (.rank field op n)
  | oneOf (field : String) {values : List Value} (hvalues : Listed values) :
    Proper (.oneOf field values)
  | notOneOf (field : String) {values : List Value} (hvalues : Listed values) :
    Proper (.not (.oneOf field values))
  | all {children : List Filter} (hvarious : Various children)
    (hchildren : ∀ f ∈ children, Proper f) (hflat : ∀ f ∈ children, f.isConjunction = false) :
    Proper (.all children)
  | any {children : List Filter} (hvarious : Various children)
    (hchildren : ∀ f ∈ children, Proper f) (hflat : ∀ f ∈ children, f.isDisjunction = false) :
    Proper (.any children)

/-- A filter in normal form: a constant, or a filter without constants in it. -/
def Normal (f : Filter) : Prop := f = always ∨ f = never ∨ f.Proper

theorem Proper.isAlways {f : Filter} (h : f.Proper) : f.isAlways = false := by
  cases h with
  | @all children hvarious =>
    cases children with
    | nil => exact absurd hvarious.1 (by simp)
    | cons => rfl
  | _ => rfl

theorem Proper.isNever {f : Filter} (h : f.Proper) : f.isNever = false := by
  cases h with
  | @any children hvarious =>
    cases children with
    | nil => exact absurd hvarious.1 (by simp)
    | cons => rfl
  | _ => rfl

/-! ## Both kinds of combination -/

/-- A conjunction or a disjunction of the filters. -/
def combined (conj : Bool) (fs : List Filter) : Filter := if conj then .all fs else .any fs

/-- Whether a filter is a combination of the kind. -/
def isCombined (conj : Bool) (f : Filter) : Bool :=
  if conj then f.isConjunction else f.isDisjunction

/-- Whether a filter takes the place of every combination of the kind that it stands in. -/
def absorbs (conj : Bool) (f : Filter) : Bool := if conj then f.isNever else f.isAlways

/-- What a filter contributes to a combination of the kind. -/
def flatten (conj : Bool) (f : Filter) : List Filter := if conj then flattenAll f else flattenAny f

/-- A combination of the kind of filters that are simple themselves. -/
def combine (conj : Bool) (fs : List Filter) : Filter :=
  if fs.any (absorbs conj) then combined (!conj) []
  else
    match distinctFrom [] (fs.flatMap (flatten conj)) with
    | [f] => f
    | fs => combined conj fs

theorem pushNot_all (negated : Bool) (fs : List Filter) :
    (all fs).pushNot negated = combined (!negated) (fs.map (pushNot negated)) := by
  rw [pushNot, pushNotList_eq]
  cases negated <;> rfl

theorem pushNot_any (negated : Bool) (fs : List Filter) :
    (any fs).pushNot negated = combined negated (fs.map (pushNot negated)) := by
  rw [pushNot, pushNotList_eq]
  cases negated <;> rfl

theorem simplify_all (fs : List Filter) : (all fs).simplify = combine true (fs.map simplify) := by
  rw [simplify, simplifyList_eq]
  rfl

theorem simplify_any (fs : List Filter) : (any fs).simplify = combine false (fs.map simplify) := by
  rw [simplify, simplifyList_eq]
  rfl

theorem depth_combined (conj : Bool) (fs : List Filter) :
    (combined conj fs).depth = depthOfList fs + 1 := by
  cases conj <;> rfl

variable {conj : Bool}

theorem flatten_of_ne {f : Filter} (h : isCombined conj f = false) : flatten conj f = [f] := by
  cases conj <;> cases f <;> first | rfl | cases h

theorem combined_nil_normal (conj : Bool) : (combined conj []).Normal := by
  cases conj with
  | true => exact .inl rfl
  | false => exact .inr (.inl rfl)

/-! ## Negations at the leaves -/

/-- Negations stand in front of lists only, and lists are as in normal filters. -/
inductive Pushed : Filter → Prop
  | compare (field : String) (op : Comparator) (value : Value) : Pushed (.compare field op value)
  | rank (field : String) (op : Comparator) (n : UInt64) : Pushed (.rank field op n)
  | oneOf (field : String) {values : List Value} (hvalues : Listed values) :
    Pushed (.oneOf field values)
  | notOneOf (field : String) {values : List Value} (hvalues : Listed values) :
    Pushed (.not (.oneOf field values))
  | all {children : List Filter} (h : ∀ f ∈ children, Pushed f) : Pushed (.all children)
  | any {children : List Filter} (h : ∀ f ∈ children, Pushed f) : Pushed (.any children)

theorem Proper.pushed {f : Filter} (h : f.Proper) : f.Pushed := by
  induction h with
  | compare field op value => exact .compare field op value
  | rank field op n => exact .rank field op n
  | oneOf field hvalues => exact .oneOf field hvalues
  | notOneOf field hvalues => exact .notOneOf field hvalues
  | all _ _ _ ih => exact .all ih
  | any _ _ _ ih => exact .any ih

theorem Pushed.combined (conj : Bool) {fs : List Filter} (h : ∀ f ∈ fs, f.Pushed) :
    (combined conj fs).Pushed := by
  cases conj with
  | true => exact .all h
  | false => exact .any h

theorem Normal.pushed {f : Filter} (h : f.Normal) : f.Pushed := by
  rcases h with rfl | rfl | h
  · exact .all (by simp)
  · exact .any (by simp)
  · exact h.pushed

/-- Distinct values that are neither none nor one. -/
theorem listed_sortDistinct {values : List Value} (hnil : Value.sortDistinct values ≠ [])
    (hone : ∀ v, Value.sortDistinct values ≠ [v]) : Listed (Value.sortDistinct values) := by
  refine ⟨?_, Value.sortDistinct_ascending values⟩
  cases hvalues : Value.sortDistinct values with
  | nil => exact absurd hvalues hnil
  | cons v rest =>
    cases rest with
    | nil => exact absurd hvalues (hone v)
    | cons => simp

theorem membership_pushed (field : String) (values : List Value) :
    (membership field values).Pushed := by
  unfold membership
  split
  · exact .any (by simp)
  · exact .compare ..
  · rename_i hnil hone
    exact .oneOf field (listed_sortDistinct hnil hone)

theorem nonMembership_pushed (field : String) (values : List Value) :
    (nonMembership field values).Pushed := by
  unfold nonMembership
  split
  · exact .all (by simp)
  · exact .compare ..
  · rename_i hnil hone
    exact .notOneOf field (listed_sortDistinct hnil hone)

theorem pushNot_pushed (f : Filter) : ∀ negated : Bool, (f.pushNot negated).Pushed := by
  induction f using Filter.induction with
  | compare => exact fun _ => .compare ..
  | rank => exact fun _ => .rank ..
  | oneOf field values =>
    intro negated
    rw [pushNot]
    split
    · exact nonMembership_pushed field values
    · exact membership_pushed field values
  | not child ih => exact fun negated => ih !negated
  | all children ih =>
    intro negated
    rw [pushNot_all]
    exact .combined _ (List.forall_mem_map.2 fun f hf => ih f hf negated)
  | any children ih =>
    intro negated
    rw [pushNot_any]
    exact .combined _ (List.forall_mem_map.2 fun f hf => ih f hf negated)

/-! ## What a combination makes of normal children -/

/-- The filters that are kept have different texts, none of which was seen before. -/
theorem distinctFrom_nodup (fs : List Filter) : ∀ seen : List String,
    ((distinctFrom seen fs).map canonical).Nodup ∧
      ∀ f ∈ distinctFrom seen fs, f.canonical ∉ seen := by
  -- the texts seen so far grow along the list, so they are general
  induction fs with
  | nil => exact fun _ => ⟨.nil, by simp [distinctFrom]⟩
  | cons f rest ih =>
    intro seen
    rw [distinctFrom]
    split
    · exact ih seen
    · rename_i hseen
      obtain ⟨hnodup, hnew⟩ := ih (f.canonical :: seen)
      refine ⟨?_, fun g hg => ?_⟩
      · rw [List.map_cons, List.nodup_cons]
        refine ⟨fun hmem => ?_, hnodup⟩
        obtain ⟨g, hg, htext⟩ := List.mem_map.1 hmem
        exact hnew g hg (by simp [htext])
      · rcases List.mem_cons.1 hg with rfl | hg
        · simpa using hseen
        · exact fun hmem => hnew g hg (List.mem_cons_of_mem _ hmem)

/-- Filters with different texts are all kept. -/
theorem distinctFrom_of_nodup {fs : List Filter} (hnodup : (fs.map canonical).Nodup) :
    ∀ seen : List String, (∀ f ∈ fs, f.canonical ∉ seen) → distinctFrom seen fs = fs := by
  induction fs with
  | nil => exact fun _ _ => rfl
  | cons f rest ih =>
    intro seen hnew
    rw [List.map_cons, List.nodup_cons] at hnodup
    have hf : seen.contains f.canonical = false := by simpa using hnew f (by simp)
    rw [distinctFrom, hf, if_neg (by simp), ih hnodup.2]
    intro g hg hmem
    rcases List.mem_cons.1 hmem with htext | hmem
    · exact hnodup.1 (List.mem_map.2 ⟨g, hg, htext⟩)
    · exact hnew g (List.mem_cons_of_mem _ hg) hmem

theorem Proper.combined {fs : List Filter} (hvarious : Various fs) (hchildren : ∀ f ∈ fs, f.Proper)
    (hflat : ∀ f ∈ fs, isCombined conj f = false) : (combined conj fs).Proper := by
  cases conj with
  | true => exact .all hvarious hchildren hflat
  | false => exact .any hvarious hchildren hflat

theorem Proper.absorbs {f : Filter} (h : f.Proper) : absorbs conj f = false := by
  cases conj with
  | true => exact h.isNever
  | false => exact h.isAlways

/-- What a combination contributes to another one of its kind. -/
theorem Proper.parts {f g : Filter} (h : f.Proper) (hkind : isCombined conj f = true)
    (hg : g ∈ flatten conj f) : g.Proper ∧ isCombined conj g = false := by
  cases conj with
  | true =>
    cases h with
    | all _ hchildren hflat => exact ⟨hchildren g hg, hflat g hg⟩
    | _ => cases hkind
  | false =>
    cases h with
    | any _ hchildren hflat => exact ⟨hchildren g hg, hflat g hg⟩
    | _ => cases hkind

/-- What a normal filter contributes to a combination that it does not take the place of. -/
theorem Normal.flatten_proper {f g : Filter} (h : f.Normal) (habsorbs : absorbs conj f = false)
    (hg : g ∈ flatten conj f) : g.Proper ∧ isCombined conj g = false := by
  rcases h with rfl | rfl | h
  -- of the two constants one absorbs and the other contributes nothing
  · cases conj with
    | true => cases hg
    | false => cases habsorbs
  · cases conj with
    | true => cases habsorbs
    | false => cases hg
  · cases hkind : isCombined conj f with
    | true => exact h.parts hkind hg
    | false =>
      rw [flatten_of_ne hkind] at hg
      exact (List.mem_singleton.1 hg) ▸ ⟨h, hkind⟩

/-- What is neither none nor one, with different texts, is various. -/
theorem various_distinctFrom {fs : List Filter} (hnil : distinctFrom [] fs ≠ [])
    (hone : ∀ f, distinctFrom [] fs ≠ [f]) : Various (distinctFrom [] fs) := by
  refine ⟨?_, (distinctFrom_nodup fs []).1⟩
  cases hfs : distinctFrom [] fs with
  | nil => exact absurd hfs hnil
  | cons f rest =>
    cases rest with
    | nil => exact absurd hfs (hone f)
    | cons => simp

/-- **A combination of normal filters is normal.** -/
theorem combine_normal (conj : Bool) {fs : List Filter} (h : ∀ f ∈ fs, f.Normal) :
    (combine conj fs).Normal := by
  unfold combine
  split
  · exact combined_nil_normal _
  · rename_i habsorbs
    have hkept : ∀ g ∈ distinctFrom [] (fs.flatMap (flatten conj)),
        g.Proper ∧ isCombined conj g = false := by
      intro g hg
      obtain ⟨f, hf, hg⟩ := List.mem_flatMap.1 (distinctFrom_subset hg)
      refine (h f hf).flatten_proper ?_ hg
      exact Bool.eq_false_iff.2 fun hf' => habsorbs (List.any_eq_true.2 ⟨f, hf, hf'⟩)
    split
    · -- a child that is left alone is proper, though perhaps a combination of the other kind
      rename_i f hone
      exact .inr (.inr (hkept f (by simp [hone])).1)
    · rename_i hone
      by_cases hnil : distinctFrom [] (fs.flatMap (flatten conj)) = []
      · rw [hnil]
        exact combined_nil_normal conj
      · exact .inr (.inr (.combined (various_distinctFrom hnil hone) (fun g hg => (hkept g hg).1)
          fun g hg => (hkept g hg).2))

/-- **Simplifying gives a normal filter,** if negations stand at the leaves. -/
theorem Pushed.simplify_normal {f : Filter} (h : f.Pushed) : f.simplify.Normal := by
  induction h with
  | compare => exact .inr (.inr (.compare ..))
  | rank => exact .inr (.inr (.rank ..))
  | oneOf field hvalues => exact .inr (.inr (.oneOf field hvalues))
  | notOneOf field hvalues => exact .inr (.inr (.notOneOf field hvalues))
  | all _ ih =>
    rw [simplify_all]
    exact combine_normal true (List.forall_mem_map.2 ih)
  | any _ ih =>
    rw [simplify_any]
    exact combine_normal false (List.forall_mem_map.2 ih)

theorem normalize_normal (f : Filter) : f.normalize.Normal :=
  (pushNot_pushed f false).simplify_normal

theorem Pushed.children_all {children : List Filter} (h : Pushed (.all children)) :
    ∀ f ∈ children, f.Pushed := by
  cases h with
  | all h => exact h

theorem Pushed.children_any {children : List Filter} (h : Pushed (.any children)) :
    ∀ f ∈ children, f.Pushed := by
  cases h with
  | any h => exact h

/-- The leaves of an expansion. -/
theorem Pushed.terms_leaf {f : Filter} (h : f.Pushed) : ∀ term ∈ f.terms, ∀ g ∈ term,
    g.Pushed ∧ (∀ fs, g ≠ .all fs) ∧ ∀ fs, g ≠ .any fs :=
  terms_inherit (fun _ => Pushed.children_all) (fun _ => Pushed.children_any) h

/-- The disjunctive form of a normal filter is normal as well. -/
theorem Normal.disjunctive {f g : Filter} (hf : f.Normal) {limit : Nat}
    (h : f.disjunctive? limit = some g) : g.Normal := by
  unfold disjunctive? at h
  split at h
  · cases h
  · obtain rfl := Option.some.inj h
    refine Pushed.simplify_normal (.any fun k hk => ?_)
    obtain ⟨term, hterm, rfl⟩ := List.mem_map.1 hk
    exact .all fun g hg => (hf.pushed.terms_leaf term hterm g hg).1

/-! ## Normal filters are left as they are -/

theorem Listed.sortDistinct_eq {values : List Value} (h : Listed values) :
    Value.sortDistinct values = values := Value.sortDistinct_of_ascending h.2

theorem Listed.exists_cons {values : List Value} (h : Listed values) :
    ∃ v w rest, values = v :: w :: rest := by
  match values, h.1 with
  | v :: w :: rest, _ => exact ⟨v, w, rest, rfl⟩

theorem Listed.membership_eq {values : List Value} (h : Listed values) (field : String) :
    membership field values = .oneOf field values := by
  obtain ⟨v, w, rest, rfl⟩ := h.exists_cons
  rw [membership, h.sortDistinct_eq]

theorem Listed.nonMembership_eq {values : List Value} (h : Listed values) (field : String) :
    nonMembership field values = .not (.oneOf field values) := by
  obtain ⟨v, w, rest, rfl⟩ := h.exists_cons
  rw [nonMembership, h.sortDistinct_eq]

theorem Pushed.pushNot_eq {f : Filter} (h : f.Pushed) : f.pushNot false = f := by
  induction h with
  | compare | rank => rfl
  | oneOf field hvalues => exact hvalues.membership_eq field
  | notOneOf field hvalues => exact hvalues.nonMembership_eq field
  | all _ ih =>
    rw [pushNot_all, (List.map_congr_left ih).trans (List.map_id _)]
    rfl
  | any _ ih =>
    rw [pushNot_any, (List.map_congr_left ih).trans (List.map_id _)]
    rfl

/-- Filters that contribute themselves only. -/
theorem flatMap_eq_self {flatten : Filter → List Filter} {fs : List Filter}
    (h : ∀ f ∈ fs, flatten f = [f]) : fs.flatMap flatten = fs := by
  induction fs with
  | nil => rfl
  | cons f rest ih =>
    rw [List.flatMap_cons, h f (by simp), ih fun g hg => h g (List.mem_cons_of_mem _ hg)]
    rfl

/-- A combination of various children that are not of its kind. -/
theorem combine_eq {fs : List Filter} (hvarious : Various fs) (hproper : ∀ f ∈ fs, f.Proper)
    (hflat : ∀ f ∈ fs, isCombined conj f = false) : combine conj fs = combined conj fs := by
  have habsorbs : fs.any (absorbs conj) = false :=
    List.any_eq_false.2 fun f hf => by simp [(hproper f hf).absorbs]
  have hflatten : fs.flatMap (flatten conj) = fs :=
    flatMap_eq_self fun f hf => flatten_of_ne (hflat f hf)
  rw [combine, habsorbs, hflatten, distinctFrom_of_nodup hvarious.2 [] (by simp)]
  match fs, hvarious.1 with
  | _ :: _ :: _, _ => rfl

theorem Proper.simplify_eq {f : Filter} (h : f.Proper) : f.simplify = f := by
  induction h with
  | compare | rank | oneOf | notOneOf => rfl
  | all hvarious hchildren hflat ih =>
    rw [simplify_all, (List.map_congr_left ih).trans (List.map_id _)]
    exact combine_eq hvarious hchildren hflat
  | any hvarious hchildren hflat ih =>
    rw [simplify_any, (List.map_congr_left ih).trans (List.map_id _)]
    exact combine_eq hvarious hchildren hflat

/-- **The normal filters are those that normalizing leaves as they are.** -/
theorem normalize_eq_self_iff {f : Filter} : f.normalize = f ↔ f.Normal := by
  refine ⟨fun h => h ▸ normalize_normal f, fun h => ?_⟩
  rw [normalize, h.pushed.pushNot_eq]
  rcases h with rfl | rfl | h
  · rfl
  · rfl
  · exact h.simplify_eq

/-! ## Depth -/

theorem depthOfList_le_iff {fs : List Filter} {n : Nat} :
    depthOfList fs ≤ n ↔ ∀ f ∈ fs, f.depth ≤ n := by
  induction fs with
  | nil => simp [depthOfList]
  | cons f rest ih => rw [depthOfList, Nat.max_le, ih, List.forall_mem_cons]

theorem depth_le_of_mem {f : Filter} {fs : List Filter} (h : f ∈ fs) : f.depth ≤ depthOfList fs :=
  depthOfList_le_iff.1 (Nat.le_refl _) f h

theorem depthOfList_map_le {g : Filter → Filter} {fs : List Filter} (n : Nat)
    (h : ∀ f ∈ fs, (g f).depth ≤ f.depth + n) : depthOfList (fs.map g) ≤ depthOfList fs + n := by
  refine depthOfList_le_iff.2 fun k hk => ?_
  obtain ⟨f, hf, rfl⟩ := List.mem_map.1 hk
  exact Nat.le_trans (h f hf) (Nat.add_le_add_right (depth_le_of_mem hf) n)

/-- A negation that is pushed inward may have to stand in front of a list. -/
theorem depth_pushNot_le (f : Filter) : ∀ negated : Bool,
    (f.pushNot negated).depth ≤ f.depth + negated.toNat := by
  induction f using Filter.induction with
  | compare | rank => exact fun _ => Nat.le_add_right _ _
  | oneOf field values =>
    intro negated
    rw [pushNot]
    cases negated with
    | false =>
      rw [if_neg (by simp), membership]
      split <;> simp [never, depth, depthOfList]
    | true =>
      rw [if_pos rfl, nonMembership]
      split <;> simp [always, depth, depthOfList]
  | not child ih =>
    intro negated
    have hchild := ih !negated
    rw [pushNot, depth]
    cases negated <;> simp at hchild ⊢ <;> omega
  | all children ih =>
    intro negated
    have hchildren := depthOfList_map_le negated.toNat fun f hf => ih f hf negated
    rw [pushNot_all, depth_combined, depth]
    omega
  | any children ih =>
    intro negated
    have hchildren := depthOfList_map_le negated.toNat fun f hf => ih f hf negated
    rw [pushNot_any, depth_combined, depth]
    omega

/-- What a filter contributes to a combination is no deeper than the filter. -/
theorem depth_flatten_le {f g : Filter} (hg : g ∈ flatten conj f) : g.depth ≤ f.depth := by
  cases hkind : isCombined conj f with
  | false =>
    rw [flatten_of_ne hkind] at hg
    exact (List.mem_singleton.1 hg) ▸ Nat.le_refl _
  | true =>
    obtain ⟨children, rfl⟩ : ∃ children, f = combined conj children := by
      cases conj <;> cases f <;> first | exact ⟨_, rfl⟩ | cases hkind
    rw [depth_combined]
    cases conj <;> exact Nat.le_succ_of_le (depth_le_of_mem hg)

theorem depth_combine_le (conj : Bool) (fs : List Filter) :
    (combine conj fs).depth ≤ depthOfList fs + 1 := by
  have hkept : depthOfList (distinctFrom [] (fs.flatMap (flatten conj))) ≤ depthOfList fs := by
    refine depthOfList_le_iff.2 fun g hg => ?_
    obtain ⟨f, hf, hg⟩ := List.mem_flatMap.1 (distinctFrom_subset hg)
    exact Nat.le_trans (depth_flatten_le hg) (depth_le_of_mem hf)
  unfold combine
  split
  · rw [depth_combined]
    exact Nat.succ_le_succ (Nat.zero_le _)
  · split
    · rename_i f hone
      rw [hone] at hkept
      exact Nat.le_succ_of_le (depthOfList_le_iff.1 hkept f (by simp))
    · rw [depth_combined]
      exact Nat.succ_le_succ hkept

theorem depth_simplify_le (f : Filter) : f.simplify.depth ≤ f.depth := by
  induction f using Filter.induction with
  | compare | rank | oneOf => exact Nat.le_refl _
  | not child ih =>
    rw [simplify, depth, depth]
    exact Nat.succ_le_succ ih
  | all children ih =>
    rw [simplify_all, depth]
    exact Nat.le_trans (depth_combine_le true _) (Nat.succ_le_succ (depthOfList_map_le 0 ih))
  | any children ih =>
    rw [simplify_any, depth]
    exact Nat.le_trans (depth_combine_le false _) (Nat.succ_le_succ (depthOfList_map_le 0 ih))

theorem depth_normalize_le (f : Filter) : f.normalize.depth ≤ f.depth :=
  Nat.le_trans (depth_simplify_le _) (depth_pushNot_le f false)

/-- **Normalizing reaches a normal form at once.** The outcome is normal and no deeper than the
filter, and normalizing it again changes nothing. -/
theorem normalize_settles (f : Filter) :
    f.normalize.Normal ∧ f.normalize.depth ≤ f.depth ∧ f.normalize.normalize = f.normalize :=
  ⟨normalize_normal f, depth_normalize_le f, normalize_eq_self_iff.2 (normalize_normal f)⟩

end RecordLayer.Filter
