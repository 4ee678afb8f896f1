import RecordLayer.Proofs.Filter.NormalForm
import RecordLayer.Proofs.Filter.Prepared

/-!
# Expansion

Before a filter is expanded, the conjunctions of the expansion are counted, with counts cut to the
largest one at every step. **The count is right all the same: it is the number of conjunctions, cut
once.** So an expansion is made just when it has as many conjunctions as allowed, or fewer, and what
it makes of a normal filter is a disjunction of that many flat conjunctions of literals at most.

Cutting early does no harm, though a count that was cut may still meet a zero: its product is then
zero, as it would have been, and with any other factor it is cut itself.
-/

namespace RecordLayer.Filter

/-! ## Counts -/

theorem min_mul_min (m a b : Nat) : min m (min m a * b) = min m (a * b) := by
  rcases Nat.le_total a m with ha | ha
  · rw [Nat.min_eq_right ha]
  · rw [Nat.min_eq_left ha]
    rcases Nat.eq_zero_or_pos b with rfl | hb
    · rfl
    · rw [Nat.min_eq_left (Nat.le_mul_of_pos_right m hb),
        Nat.min_eq_left (Nat.le_trans ha (Nat.le_mul_of_pos_right a hb))]

/-- One conjunction of each side, combined in every way. -/
theorem length_product (as bs : List (List Filter)) :
    (as.flatMap fun a => bs.map (a ++ ·)).length = as.length * bs.length := by
  induction as with
  | nil => simp
  | cons a rest ih =>
    rw [List.flatMap_cons, List.length_append, List.length_map, ih, List.length_cons,
      Nat.succ_mul, Nat.add_comm]

/-- Multiplying the counts of children onto a count, if each count is right. -/
theorem termProduct_eq {fs : List Filter}
    (h : ∀ f ∈ fs, f.termCount = min maxCount f.terms.length) : ∀ count ≤ maxCount,
      termProduct count fs = min maxCount (count * (termsOfAll fs).length) := by
  -- the count grows along the list, so it is general
  induction fs with
  | nil =>
    intro count hcount
    simp [termProduct, termsOfAll, Nat.min_eq_right hcount]
  | cons f rest ih =>
    intro count hcount
    rw [termProduct, ih (fun g hg => h g (List.mem_cons_of_mem _ hg)) _ (Nat.min_le_left _ _),
      termsOfAll, length_product, h f (by simp), min_mul_min, Nat.mul_comm count, Nat.mul_assoc,
      min_mul_min, Nat.mul_left_comm]

/-- Adding the counts of children onto a count, if each count is right. -/
theorem termSum_eq {fs : List Filter}
    (h : ∀ f ∈ fs, f.termCount = min maxCount f.terms.length) : ∀ count ≤ maxCount,
      termSum count fs = min maxCount (count + (termsOfAny fs).length) := by
  induction fs with
  | nil =>
    intro count hcount
    simp [termSum, termsOfAny, Nat.min_eq_right hcount]
  | cons f rest ih =>
    intro count hcount
    rw [termSum, ih (fun g hg => h g (List.mem_cons_of_mem _ hg)) _ (Nat.min_le_left _ _),
      termsOfAny, List.length_append, h f (by simp)]
    omega

/-- **The count is the number of conjunctions, cut to the largest count.** -/
theorem termCount_eq (f : Filter) : f.termCount = min maxCount f.terms.length := by
  induction f using Filter.induction with
  | compare | oneOf | rank | not => rfl
  | all children ih =>
    rw [termCount, terms, termProduct_eq ih 1 (by decide), Nat.one_mul]
  | any children ih =>
    rw [termCount, terms, termSum_eq ih 0 (by decide), Nat.zero_add]

theorem isSome_disjunctive_iff {f : Filter} {limit : Nat} :
    (f.disjunctive? limit).isSome = true ↔ f.termCount ≤ limit := by
  unfold disjunctive?
  split
  · rename_i h
    simpa using h
  · rename_i h
    simpa using h

theorem eq_simplify_of_disjunctive {f g : Filter} {limit : Nat}
    (h : f.disjunctive? limit = some g) :
    f.termCount ≤ limit ∧ g = (any (f.terms.map .all)).simplify := by
  have hcount := isSome_disjunctive_iff.1 (Option.isSome_iff_exists.2 ⟨g, h⟩)
  rw [disjunctive?, if_neg (Nat.not_lt.2 hcount)] at h
  exact ⟨hcount, (Option.some.inj h).symm⟩

/-! ## Disjunctive form -/

/-- A condition without parts, or a negated list. -/
inductive Literal : Filter → Prop
  | compare (field : String) (op : Comparator) (value : Value) : Literal (.compare field op value)
  | oneOf (field : String) (values : List Value) : Literal (.oneOf field values)
  | rank (field : String) (op : Comparator) (n : UInt64) : Literal (.rank field op n)
  | notOneOf (field : String) (values : List Value) : Literal (.not (.oneOf field values))

/-- A literal, or a conjunction of several literals. -/
inductive Disjunct : Filter → Prop
  | literal {f : Filter} (h : f.Literal) : Disjunct f
  | all {fs : List Filter} (hseveral : 2 ≤ fs.length) (h : ∀ f ∈ fs, f.Literal) :
    Disjunct (.all fs)

/-- A constant, a single disjunct, or a disjunction of several disjuncts, but of no more than
`limit`. -/
inductive Disjunctive (limit : Nat) : Filter → Prop
  | always : Disjunctive limit always
  | never : Disjunctive limit never
  | disjunct {f : Filter} (h : f.Disjunct) : Disjunctive limit f
  | any {fs : List Filter} (hseveral : 2 ≤ fs.length) (hlimit : fs.length ≤ limit)
    (h : ∀ f ∈ fs, f.Disjunct) : Disjunctive limit (.any fs)

theorem Disjunctive.mono {limit limit' : Nat} (hle : limit ≤ limit') {f : Filter}
    (h : f.Disjunctive limit) : f.Disjunctive limit' := by
  cases h with
  | always => exact .always
  | never => exact .never
  | disjunct h => exact .disjunct h
  | any hseveral hlimit h => exact .any hseveral (Nat.le_trans hlimit hle) h

theorem Pushed.literal {f : Filter} (h : f.Pushed) (hall : ∀ fs, f ≠ .all fs)
    (hany : ∀ fs, f ≠ .any fs) : f.Literal := by
  cases h with
  | compare field op value => exact .compare field op value
  | rank field op n => exact .rank field op n
  | oneOf field => exact .oneOf field _
  | notOneOf field => exact .notOneOf field _
  | @all children => exact absurd rfl (hall children)
  | @any children => exact absurd rfl (hany children)

variable {conj : Bool}

theorem Literal.simplify_eq {f : Filter} (h : f.Literal) : f.simplify = f := by
  cases h <;> rfl

theorem Literal.absorbs {f : Filter} (h : f.Literal) : absorbs conj f = false := by
  cases conj <;> cases h <;> rfl

theorem Literal.isCombined {f : Filter} (h : f.Literal) : isCombined conj f = false := by
  cases conj <;> cases h <;> rfl

theorem Disjunct.isDisjunction {f : Filter} (h : f.Disjunct) : f.isDisjunction = false := by
  cases h with
  | literal h => exact (h.isCombined : isCombined false _ = false)
  | all => rfl

/-- What a combination makes of filters that neither take its place nor are combinations of its
kind. -/
theorem combine_of_flat (conj : Bool) {fs : List Filter}
    (habsorbs : ∀ f ∈ fs, absorbs conj f = false) (hflat : ∀ f ∈ fs, isCombined conj f = false) :
    combine conj fs = combined conj [] ∨ (∃ f ∈ fs, combine conj fs = f) ∨
      ∃ kept, 2 ≤ kept.length ∧ kept.Sublist fs ∧ combine conj fs = combined conj kept := by
  have hany : fs.any (Filter.absorbs conj) = false :=
    List.any_eq_false.2 fun f hf => by simp [habsorbs f hf]
  have hsublist := distinctFrom_sublist fs []
  rw [combine, hany, if_neg (by simp), flatMap_eq_self fun f hf => flatten_of_ne (hflat f hf)]
  generalize distinctFrom [] fs = kept at hsublist ⊢
  rcases kept with _ | ⟨f, _ | ⟨g, rest⟩⟩
  · exact .inl rfl
  · exact .inr (.inl ⟨f, hsublist.subset (by simp), rfl⟩)
  · exact .inr (.inr ⟨f :: g :: rest, by simp, hsublist, rfl⟩)

/-- A conjunction of literals becomes a disjunct, unless there are none. -/
theorem simplify_all_literals {term : List Filter} (h : ∀ f ∈ term, f.Literal) :
    (all term).simplify = always ∨ (all term).simplify.Disjunct := by
  rw [simplify_all, (List.map_congr_left fun f hf => (h f hf).simplify_eq).trans (List.map_id _)]
  rcases combine_of_flat true (fun f hf => (h f hf).absorbs)
    (fun f hf => (h f hf).isCombined) with heq | ⟨f, hf, heq⟩ | ⟨kept, hseveral, hkept, heq⟩
  · exact .inl heq
  · exact .inr (heq ▸ .literal (h f hf))
  · rw [heq]
    exact .inr (.all hseveral fun f hf => h f (hkept.subset hf))

/-- A disjunction of conjunctions of literals has at most one disjunct for each of them. -/
theorem simplify_any_literals {terms : List (List Filter)}
    (h : ∀ term ∈ terms, ∀ f ∈ term, f.Literal) :
    (any (terms.map .all)).simplify.Disjunctive terms.length := by
  rw [simplify_any, List.map_map]
  by_cases halways : ∃ term ∈ terms, (all term).simplify = Filter.always
  · -- one conjunction without literals makes the whole constant
    obtain ⟨term, hterm, heq⟩ := halways
    have hany : (terms.map (simplify ∘ .all)).any (absorbs false) = true :=
      List.any_eq_true.2 ⟨_, List.mem_map_of_mem hterm, by simp [heq]; rfl⟩
    rw [combine, hany, if_pos rfl]
    exact .always
  · have hdisjunct : ∀ f ∈ terms.map (simplify ∘ .all), f.isAlways = false ∧ f.Disjunct := by
      intro f hf
      obtain ⟨term, hterm, rfl⟩ := List.mem_map.1 hf
      rcases simplify_all_literals (h term hterm) with heq | hform
      · exact absurd ⟨term, hterm, heq⟩ halways
      · refine ⟨Bool.eq_false_iff.2 fun htrue => ?_, hform⟩
        exact halways ⟨term, hterm, eq_always_of_isAlways htrue⟩
    -- no disjunct, one disjunct, or several of them are left
    rcases combine_of_flat false (fun f hf => (hdisjunct f hf).1)
      (fun f hf => (hdisjunct f hf).2.isDisjunction) with heq | ⟨f, hf, heq⟩ |
        ⟨kept, hseveral, hkept, heq⟩
    · rw [heq]
      exact .never
    · rw [heq]
      exact .disjunct (hdisjunct f hf).2
    · rw [heq]
      refine .any hseveral ?_ fun f hf => (hdisjunct f (hkept.subset hf)).2
      have hlength := hkept.length_le
      rwa [List.length_map] at hlength

/-- **Expansion is counted exactly, bounded and in form.** The count is the number of conjunctions,
cut to the largest count; a filter is expanded just when its count is within the limit; and a normal
filter is expanded into at most as many disjuncts as it has conjunctions, which are within the limit
as well. A list has at most `maxCount` elements, which only the largest limit of all has to rely on.
-/
theorem expansion_bounded (f : Filter) (limit : Nat) :
    f.termCount = min maxCount f.terms.length ∧
      ((f.disjunctive? limit).isSome = true ↔ f.termCount ≤ limit) ∧
      ∀ g, f.normalize.disjunctive? limit = some g →
        g.Disjunctive f.normalize.terms.length ∧
          (limit < maxCount ∨ f.normalize.terms.length ≤ maxCount → g.Disjunctive limit) := by
  refine ⟨termCount_eq f, isSome_disjunctive_iff, fun g hg => ?_⟩
  obtain ⟨hcount, rfl⟩ := eq_simplify_of_disjunctive hg
  have hform := simplify_any_literals fun term hterm g hg =>
    have hleaf := (normalize_normal f).pushed.terms_leaf term hterm g hg
    hleaf.1.literal hleaf.2.1 hleaf.2.2
  refine ⟨hform, fun hmemory => hform.mono ?_⟩
  rw [termCount_eq] at hcount
  omega

/-- The layered filter has two conjunctions, and two disjuncts if two are allowed. -/
theorem expansion_bounded_layered :
    Layered.filter.termCount = min maxCount Layered.filter.terms.length ∧
      ∃ g, Layered.filter.normalize.disjunctive? 2 = some g ∧ 2 < maxCount ∧ g.Disjunctive 2 := by
  obtain ⟨hcount, -, hform⟩ := expansion_bounded Layered.filter 2
  have hg := Layered.disjunctive_filter 2 (by decide)
  rw [← Layered.normalize_filter] at hg
  exact ⟨hcount, _, hg, by decide, (hform _ hg).2 (.inl (by decide))⟩

end RecordLayer.Filter
