import RecordLayer.Filter.Disjunctive
import RecordLayer.Proofs.Filter.Text

/-!
# Rewriting preserves meaning

**The normal form and the disjunctive form of a filter hold for the same records as the filter,**
and they speak of no field that the filter does not speak of.

Each rewriting is a recursion on the tree, and so is each proof. Only dropping repeated children
needs more than that: it compares canonical texts, and children with one text hold alike because
they are alike filters.
-/

namespace RecordLayer.Filter

variable {value : String → Value} {rankOf : String → Value → UInt64} {P R : String → Prop}

/-! ## Listed values -/

theorem membership_holds (field : String) (values : List Value) :
    (membership field values).holds value rankOf = values.contains (value field) := by
  have hmem : ∀ v, (Value.sortDistinct values).contains v = values.contains v := fun v => by
    rw [Bool.eq_iff_iff, List.contains_iff_mem, List.contains_iff_mem, Value.mem_sortDistinct]
  rw [← hmem]
  unfold membership
  split
  · rename_i h
    simp [never, h]
  · rename_i v h
    rw [h, holds_compare, Comparator.test, Comparator.accepts, Bool.eq_iff_iff]
    simp [Value.compare_eq_iff]
  · rw [holds_oneOf]

theorem nonMembership_holds (field : String) (values : List Value) :
    (nonMembership field values).holds value rankOf = !values.contains (value field) := by
  have hmember : (membership field values).holds value rankOf = values.contains (value field) :=
    membership_holds field values
  rw [← hmember]
  unfold membership nonMembership
  split
  · simp [always, never]
  · rw [holds_compare, holds_compare, ← Comparator.test_negate]
    rfl
  · rw [holds_not]

theorem membership_over {field : String} (h : P field) (values : List Value) :
    (membership field values).Over P R := by
  unfold membership
  split
  · exact .any (by simp)
  · exact .compare h
  · exact .oneOf h

theorem nonMembership_over {field : String} (h : P field) (values : List Value) :
    (nonMembership field values).Over P R := by
  unfold nonMembership
  split
  · exact .all (by simp)
  · exact .compare h
  · exact .not (.oneOf h)

/-! ## Negations -/

theorem pushNotList_eq (negated : Bool) (fs : List Filter) :
    pushNotList negated fs = fs.map (pushNot negated) := by
  induction fs with
  | nil => rfl
  | cons f rest ih => rw [pushNotList, ih, List.map_cons]

/-- A negation that moves through a combination negates every child. -/
theorem all_any_not (fs : List Filter) (p : Filter → Bool) :
    (fs.all fun f => !p f) = !fs.any p ∧ (fs.any fun f => !p f) = !fs.all p := by
  constructor
  · rw [List.not_any_eq_all_not]
  · rw [List.not_all_eq_any_not]

theorem pushNot_holds (f : Filter) : ∀ negated : Bool,
    (f.pushNot negated).holds value rankOf = (f.holds value rankOf ^^ negated) := by
  induction f using Filter.induction with
  | compare field op v =>
    intro negated
    cases negated with
    | false => simp [pushNot]
    | true => simp [pushNot, Comparator.test_negate]
  | oneOf field values =>
    intro negated
    cases negated with
    | false => simp [pushNot, membership_holds]
    | true => simp [pushNot, nonMembership_holds]
  | rank field op n =>
    intro negated
    cases negated with
    | false => simp [pushNot]
    | true => simp [pushNot, Comparator.testRank_negate]
  | not child ih =>
    intro negated
    rw [pushNot, ih, holds_not]
    cases child.holds value rankOf <;> cases negated <;> rfl
  | all children ih =>
    intro negated
    -- a negation turns a conjunction into a disjunction of negations, so both are followed at once
    have hsame := all_any_congr fun f hf => ih f hf negated
    cases negated with
    | false => simpa [pushNot, pushNotList_eq, Function.comp_def] using hsame.1
    | true =>
      simp only [Bool.xor_true, (all_any_not children _).2] at hsame
      simpa [pushNot, pushNotList_eq, Function.comp_def] using hsame.2
  | any children ih =>
    intro negated
    have hsame := all_any_congr fun f hf => ih f hf negated
    cases negated with
    | false => simpa [pushNot, pushNotList_eq, Function.comp_def] using hsame.2
    | true =>
      simp only [Bool.xor_true, (all_any_not children _).1] at hsame
      simpa [pushNot, pushNotList_eq, Function.comp_def] using hsame.1

theorem pushNot_over {f : Filter} (h : f.Over P R) : ∀ negated : Bool,
    (f.pushNot negated).Over P R := by
  induction h with
  | compare h => exact fun _ => .compare h
  | oneOf h =>
    intro negated
    rw [pushNot]
    split
    · exact nonMembership_over h _
    · exact membership_over h _
  | rank h hr => exact fun _ => .rank h hr
  | not _ ih => exact fun negated => ih !negated
  | @all children _ ih | @any children _ ih =>
    intro negated
    have hchildren : ∀ f ∈ pushNotList negated children, f.Over P R := by
      intro f hf
      rw [pushNotList_eq] at hf
      obtain ⟨g, hg, rfl⟩ := List.mem_map.1 hf
      exact ih g hg negated
    rw [pushNot]
    -- under a negation the two kinds of combination change places
    cases negated with
    | false => first | exact .all hchildren | exact .any hchildren
    | true => first | exact .any hchildren | exact .all hchildren

/-! ## Repeated children -/

theorem distinctFrom_sublist (fs : List Filter) : ∀ seen : List String,
    (distinctFrom seen fs).Sublist fs := by
  induction fs with
  | nil => exact fun _ => List.Sublist.slnil
  | cons f rest ih =>
    intro seen
    rw [distinctFrom]
    split
    · exact (ih seen).cons f
    · exact (ih _).cons_cons f

theorem distinctFrom_subset {seen : List String} {fs : List Filter} {f : Filter}
    (h : f ∈ distinctFrom seen fs) : f ∈ fs := (distinctFrom_sublist fs seen).subset h

/-- A filter that is left out has the text of one that is kept or was seen. -/
theorem exists_distinctFrom {fs : List Filter} {f : Filter} (h : f ∈ fs) :
    ∀ seen : List String, f.canonical ∈ seen ∨
      ∃ g ∈ distinctFrom seen fs, g.canonical = f.canonical := by
  induction fs with
  | nil => cases h
  | cons g rest ih =>
    intro seen
    rw [distinctFrom]
    rcases List.mem_cons.1 h with rfl | h
    · split
      · rename_i hseen
        exact .inl (List.contains_iff_mem.1 hseen)
      · exact .inr ⟨f, by simp, rfl⟩
    · split
      · exact ih h seen
      · rcases ih h (g.canonical :: seen) with hseen | ⟨k, hk, htext⟩
        · rcases List.mem_cons.1 hseen with htext | hseen
          · exact .inr ⟨g, by simp, htext.symm⟩
          · exact .inl hseen
        · exact .inr ⟨k, List.mem_cons_of_mem _ hk, htext⟩

/-- Dropping repeated filters changes neither their conjunction nor their disjunction. -/
theorem distinctFrom_holds (fs : List Filter) :
    (distinctFrom [] fs).all (·.holds value rankOf) = fs.all (·.holds value rankOf) ∧
    (distinctFrom [] fs).any (·.holds value rankOf) = fs.any (·.holds value rankOf) := by
  have hsame : ∀ f ∈ fs, ∃ g ∈ distinctFrom [] fs,
      g.holds value rankOf = f.holds value rankOf := by
    intro f hf
    rcases exists_distinctFrom hf [] with hnil | ⟨g, hg, htext⟩
    · cases hnil
    · exact ⟨g, hg, (canonical_eq_iff.1 htext).holds_eq value rankOf⟩
  constructor
  · rw [Bool.eq_iff_iff, List.all_eq_true, List.all_eq_true]
    refine ⟨fun h f hf => ?_, fun h f hf => h f (distinctFrom_subset hf)⟩
    obtain ⟨g, hg, heq⟩ := hsame f hf
    exact heq ▸ h g hg
  · rw [Bool.eq_iff_iff, List.any_eq_true, List.any_eq_true]
    refine ⟨fun ⟨f, hf, h⟩ => ⟨f, distinctFrom_subset hf, h⟩, fun ⟨f, hf, h⟩ => ?_⟩
    obtain ⟨g, hg, heq⟩ := hsame f hf
    exact ⟨g, hg, heq ▸ h⟩

/-! ## Combinations -/

theorem flattenAll_holds (fs : List Filter) :
    (fs.flatMap flattenAll).all (·.holds value rankOf) = fs.all (·.holds value rankOf) := by
  induction fs with
  | nil => rfl
  | cons f rest ih =>
    rw [List.flatMap_cons, List.all_append, ih, List.all_cons]
    cases f <;> simp [flattenAll]

theorem flattenAny_holds (fs : List Filter) :
    (fs.flatMap flattenAny).any (·.holds value rankOf) = fs.any (·.holds value rankOf) := by
  induction fs with
  | nil => rfl
  | cons f rest ih =>
    rw [List.flatMap_cons, List.any_append, ih, List.any_cons]
    cases f <;> simp [flattenAny]

theorem eq_never_of_isNever {f : Filter} (h : f.isNever = true) : f = never := by
  unfold isNever at h
  split at h
  · rfl
  · cases h

theorem eq_always_of_isAlways {f : Filter} (h : f.isAlways = true) : f = always := by
  unfold isAlways at h
  split at h
  · rfl
  · cases h

theorem conjunction_holds (fs : List Filter) :
    (conjunction fs).holds value rankOf = fs.all (·.holds value rankOf) := by
  unfold conjunction
  split
  · rename_i h
    obtain ⟨f, hf, hnever⟩ := List.any_eq_true.1 h
    rw [never, holds_any, List.any_nil, eq_comm, List.all_eq_false]
    refine ⟨f, hf, ?_⟩
    rw [eq_never_of_isNever hnever, never, holds_any]
    simp
  · rw [← flattenAll_holds, ← (distinctFrom_holds _).1]
    split
    · rename_i f h
      rw [h, List.all_cons, List.all_nil, Bool.and_true]
    · rw [holds_all]

theorem disjunction_holds (fs : List Filter) :
    (disjunction fs).holds value rankOf = fs.any (·.holds value rankOf) := by
  unfold disjunction
  split
  · rename_i h
    obtain ⟨f, hf, halways⟩ := List.any_eq_true.1 h
    rw [always, holds_all, List.all_nil, eq_comm, List.any_eq_true]
    refine ⟨f, hf, ?_⟩
    rw [eq_always_of_isAlways halways, always, holds_all, List.all_nil]
  · rw [← flattenAny_holds, ← (distinctFrom_holds _).2]
    split
    · rename_i f h
      rw [h, List.any_cons, List.any_nil, Bool.or_false]
    · rw [holds_any]

theorem Over.child_all {children : List Filter} (h : (Filter.all children).Over P R) :
    ∀ f ∈ children, f.Over P R := by
  cases h with
  | all h => exact h

theorem Over.child_any {children : List Filter} (h : (Filter.any children).Over P R) :
    ∀ f ∈ children, f.Over P R := by
  cases h with
  | any h => exact h

theorem conjunction_over {fs : List Filter} (h : ∀ f ∈ fs, f.Over P R) :
    (conjunction fs).Over P R := by
  have hflat : ∀ f ∈ distinctFrom [] (fs.flatMap flattenAll), f.Over P R := by
    intro f hf
    obtain ⟨g, hg, hfg⟩ := List.mem_flatMap.1 (distinctFrom_subset hf)
    unfold flattenAll at hfg
    split at hfg
    · exact (h _ hg).child_all f hfg
    · rw [List.mem_singleton.1 hfg]
      exact h g hg
  unfold conjunction
  split
  · exact .any (by simp)
  · split
    · rename_i f hsingle
      exact hflat f (by rw [hsingle]; simp)
    · exact .all hflat

theorem disjunction_over {fs : List Filter} (h : ∀ f ∈ fs, f.Over P R) :
    (disjunction fs).Over P R := by
  have hflat : ∀ f ∈ distinctFrom [] (fs.flatMap flattenAny), f.Over P R := by
    intro f hf
    obtain ⟨g, hg, hfg⟩ := List.mem_flatMap.1 (distinctFrom_subset hf)
    unfold flattenAny at hfg
    split at hfg
    · exact (h _ hg).child_any f hfg
    · rw [List.mem_singleton.1 hfg]
      exact h g hg
  unfold disjunction
  split
  · exact .all (by simp)
  · split
    · rename_i f hsingle
      exact hflat f (by rw [hsingle]; simp)
    · exact .any hflat

/-! ## Normal form -/

theorem simplifyList_eq (fs : List Filter) : simplifyList fs = fs.map simplify := by
  induction fs with
  | nil => rfl
  | cons f rest ih => rw [simplifyList, ih, List.map_cons]

theorem simplify_holds (f : Filter) :
    f.simplify.holds value rankOf = f.holds value rankOf := by
  induction f using Filter.induction with
  | compare | oneOf | rank => rfl
  | not child ih => rw [simplify, holds_not, holds_not, ih]
  | all children ih =>
    rw [simplify, simplifyList_eq, conjunction_holds, List.all_map, holds_all]
    exact (all_any_congr ih).1
  | any children ih =>
    rw [simplify, simplifyList_eq, disjunction_holds, List.any_map, holds_any]
    exact (all_any_congr ih).2

theorem simplify_over {f : Filter} (h : f.Over P R) : f.simplify.Over P R := by
  induction h with
  | compare h => exact .compare h
  | oneOf h => exact .oneOf h
  | rank h hr => exact .rank h hr
  | not _ ih => exact .not ih
  | all _ ih =>
    rw [simplify, simplifyList_eq]
    exact conjunction_over fun f hf => by
      obtain ⟨g, hg, rfl⟩ := List.mem_map.1 hf
      exact ih g hg
  | any _ ih =>
    rw [simplify, simplifyList_eq]
    exact disjunction_over fun f hf => by
      obtain ⟨g, hg, rfl⟩ := List.mem_map.1 hf
      exact ih g hg

/-- **The normal form holds for the same records.** -/
theorem normalize_holds (f : Filter) :
    f.normalize.holds value rankOf = f.holds value rankOf := by
  rw [normalize, simplify_holds, pushNot_holds, Bool.xor_false]

theorem normalize_over {f : Filter} (h : f.Over P R) : f.normalize.Over P R :=
  simplify_over (pushNot_over h false)

/-! ## Disjunctive form -/

theorem termsOfAny_eq (fs : List Filter) : termsOfAny fs = fs.flatMap terms := by
  induction fs with
  | nil => rfl
  | cons f rest ih => rw [termsOfAny, ih, List.flatMap_cons]

theorem any_all_front (p : Filter → Bool) (a : List Filter) (bs : List (List Filter)) :
    (bs.map (a ++ ·)).any (·.all p) = (a.all p && bs.any (·.all p)) := by
  induction bs with
  | nil => simp
  | cons b bs ih =>
    rw [List.map_cons, List.any_cons, ih, List.all_append, List.any_cons,
      Bool.and_or_distrib_left]

/-- The conjunctions of some terms, each put in front of each of some others. -/
theorem any_all_product (p : Filter → Bool) (as bs : List (List Filter)) :
    (as.flatMap fun a => bs.map (a ++ ·)).any (·.all p) =
      (as.any (·.all p) && bs.any (·.all p)) := by
  induction as with
  | nil => rfl
  | cons a rest ih =>
    rw [List.flatMap_cons, List.any_append, any_all_front, ih, List.any_cons,
      Bool.and_or_distrib_right]

theorem terms_holds (f : Filter) :
    f.terms.any (·.all (·.holds value rankOf)) = f.holds value rankOf := by
  induction f using Filter.induction with
  | compare | oneOf | rank | not => simp [terms]
  | all children ih =>
    rw [terms, holds_all]
    induction children with
    | nil => rfl
    | cons f rest ihrest =>
      rw [termsOfAll, any_all_product, ih f (by simp), List.all_cons,
        ihrest fun g hg => ih g (List.mem_cons_of_mem _ hg)]
  | any children ih =>
    rw [terms, termsOfAny_eq, holds_any, List.any_flatMap]
    exact (all_any_congr ih).2

/-- What a filter hands down to the parts of its combinations, the leaves of its terms have; they
are no combinations themselves. -/
theorem terms_inherit {Q : Filter → Prop}
    (hall : ∀ children, Q (.all children) → ∀ f ∈ children, Q f)
    (hany : ∀ children, Q (.any children) → ∀ f ∈ children, Q f) {f : Filter} (h : Q f) :
    ∀ term ∈ f.terms, ∀ g ∈ term, Q g ∧ (∀ fs, g ≠ .all fs) ∧ ∀ fs, g ≠ .any fs := by
  induction f using Filter.induction with
  | compare | oneOf | rank | not => simpa [terms] using h
  | all children ih =>
    rw [terms]
    have hchildren := hall children h
    -- a term of the conjunction joins one of the first child with one of the others
    clear h
    induction children with
    | nil => simp [termsOfAll]
    | cons f rest ihrest =>
      intro term hterm g hg
      obtain ⟨front, hfront, hterm⟩ := List.mem_flatMap.1 hterm
      obtain ⟨tail, htail, rfl⟩ := List.mem_map.1 hterm
      rcases List.mem_append.1 hg with hg | hg
      · exact ih f (by simp) (hchildren f (by simp)) front hfront g hg
      · exact ihrest (fun x hx => ih x (List.mem_cons_of_mem _ hx))
          (fun x hx => hchildren x (List.mem_cons_of_mem _ hx)) tail htail g hg
  | any children ih =>
    intro term hterm
    rw [terms, termsOfAny_eq] at hterm
    obtain ⟨f, hf, hterm⟩ := List.mem_flatMap.1 hterm
    exact ih f hf (hany children h f hf) term hterm

theorem terms_over {f : Filter} (h : f.Over P R) : ∀ term ∈ f.terms, ∀ g ∈ term, g.Over P R :=
  fun term hterm g hg =>
    (terms_inherit (fun _ => Over.child_all) (fun _ => Over.child_any) h term hterm g hg).1

/-- **The disjunctive form holds for the same records.** -/
theorem disjunctive_holds {f g : Filter} {limit : Nat} (h : f.disjunctive? limit = some g) :
    g.holds value rankOf = f.holds value rankOf := by
  unfold disjunctive? at h
  split at h
  · cases h
  · obtain rfl := Option.some.inj h
    rw [simplify_holds, holds_any, List.any_map, ← terms_holds f]
    congr 1
    funext term
    exact holds_all term

theorem disjunctive_over {f g : Filter} {limit : Nat} (h : f.disjunctive? limit = some g)
    (hf : f.Over P R) : g.Over P R := by
  unfold disjunctive? at h
  split at h
  · cases h
  · obtain rfl := Option.some.inj h
    refine simplify_over (.any fun k hk => ?_)
    obtain ⟨term, hterm, rfl⟩ := List.mem_map.1 hk
    exact .all (terms_over hf term hterm)

end RecordLayer.Filter
