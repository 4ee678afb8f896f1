import RecordLayer.Filter.Prepared
import RecordLayer.Proofs.Filter.Normal

/-!
# Prepared filters stand for the filter of the query

Planning never looks at the filter of a query again once it is prepared, so the normal form and the
disjunctive form have to stand for it: they hold for the same records whatever the ranks of values
are, and where the filter can be bound to a record type, so can they, with the same answers.

Only this direction of the second part is true. Rewriting may drop a part that tests an unknown
field, and the outcome can then be bound where the filter cannot.
-/

namespace RecordLayer.Filter

open Reading

/-- A filter stands for another one: it holds for the same records under every assignment of ranks,
and where the other one can be bound, so can it, and both answer alike. -/
structure StandsFor (g f : Filter) : Prop where
  holds : ∀ (value : String → Value) (rankOf : String → Value → UInt64),
    g.holds value rankOf = f.holds value rankOf
  accepts : ∀ (c : Catalog) (t : RecordType) (test : CompiledFilter),
    CompiledFilter.compile f t c = .ok test →
    ∃ test', CompiledFilter.compile g t c = .ok test' ∧
      ∀ (v : StoreView) (rankOf : String → Value → UInt64), v.Ranks c t rankOf → ∀ r,
        (test.accepts v r).Gives (f.holds (t.valueOf r) rankOf) ∧
        (test'.accepts v r).Gives (f.holds (t.valueOf r) rankOf)

/-- A rewriting that keeps the meaning and adds no field gives what stands for the filter. -/
theorem standsFor_of_over {f g : Filter}
    (hholds : ∀ (value : String → Value) (rankOf : String → Value → UInt64),
      g.holds value rankOf = f.holds value rankOf)
    (hover : ∀ {P R : String → Prop}, f.Over P R → g.Over P R) : g.StandsFor f where
  holds := hholds
  accepts c t test htest := by
    obtain ⟨node, hnode, hroot⟩ := exists_of_bind_eq_ok htest
    cases hroot
    -- binding fails on fields and indexes only, and the rewriting tests no others
    obtain ⟨node', hnode'⟩ :=
      CompiledNode.exists_ofFilter (hover (CompiledNode.over_of_ofFilter hnode))
    refine ⟨⟨node', g⟩, by rw [CompiledFilter.compile, hnode']; rfl, fun v rankOf hranks r => ?_⟩
    refine ⟨CompiledNode.eval_gives hranks r hnode, ?_⟩
    rw [← hholds]
    exact CompiledNode.eval_gives hranks r hnode'

theorem normalize_standsFor (f : Filter) : f.normalize.StandsFor f :=
  standsFor_of_over (fun _ _ => normalize_holds f) normalize_over

theorem disjunctive_standsFor {f g : Filter} {limit : Nat} (h : f.disjunctive? limit = some g) :
    g.StandsFor f :=
  standsFor_of_over (fun _ _ => disjunctive_holds h) (disjunctive_over h)

theorem StandsFor.trans {f g k : Filter} (hkg : k.StandsFor g) (hgf : g.StandsFor f) :
    k.StandsFor f where
  holds value rankOf := (hkg.holds value rankOf).trans (hgf.holds value rankOf)
  accepts c t test htest := by
    obtain ⟨mid, hmid, hgives⟩ := hgf.accepts c t test htest
    obtain ⟨last, hlast, hgives'⟩ := hkg.accepts c t mid hmid
    refine ⟨last, hlast, fun v rankOf hranks r => ⟨(hgives v rankOf hranks r).1, ?_⟩⟩
    rw [← hgf.holds]
    exact (hgives' v rankOf hranks r).2

/-- What a filter is prepared into: its normal form, and the disjunctive form of that. -/
theorem prepare_spec {f : Filter} {limits : Limits} {prepared : Prepared}
    (h : f.prepare limits = .ok prepared) : prepared.filter = f.normalize ∧
      ∀ g, prepared.expanded = some g → f.normalize.disjunctive? limits.maxTerms = some g := by
  unfold prepare at h
  cases hdepth : f.checkDepth limits.maxDepth with
  | error e =>
    rw [hdepth] at h
    cases h
  | ok _ =>
    rw [hdepth] at h
    cases h
    exact ⟨rfl, fun g hg => (Option.filter_eq_some_iff.1 hg).1⟩

/-- **Whatever a filter is prepared into stands for it, and so does the disjunctive form of any
filter.** -/
theorem prepared_standsFor (f : Filter) :
    (∀ limits prepared, f.prepare limits = .ok prepared →
      prepared.filter.StandsFor f ∧ ∀ g, prepared.expanded = some g → g.StandsFor f) ∧
    ∀ limit g, f.disjunctive? limit = some g → g.StandsFor f := by
  refine ⟨fun limits prepared h => ?_, fun limit g h => disjunctive_standsFor h⟩
  obtain ⟨hnormal, hexpanded⟩ := prepare_spec h
  refine ⟨?_, fun g hg => ?_⟩
  · rw [hnormal]
    exact normalize_standsFor f
  · exact (disjunctive_standsFor (hexpanded g hg)).trans (normalize_standsFor f)

/-! ## A filter with a disjunctive form -/

/-- Filters that differ in meaning have different canonical texts. -/
theorem canonical_ne_of_holds_ne {f g : Filter} (value : String → Value)
    (rankOf : String → Value → UInt64) (h : f.holds value rankOf ≠ g.holds value rankOf) :
    f.canonical ≠ g.canonical :=
  fun heq => h ((canonical_eq_iff.1 heq).holds_eq value rankOf)

namespace Layered

/-- Among the three lowest scores. -/
def low : Filter := .rank "score" .lt 3

/-- The first record. -/
def first : Filter := .compare "id" .eq (.int 1)

/-- Above an age. -/
def old : Filter := .compare "age" .gt (.int 2)

/-- Negations over disjunctions. -/
def filter : Filter := .not (.any [.not low, .not (.any [first, old])])

theorem normalize_filter : filter.normalize = .all [low, .any [first, old]] := by
  have hleaves : old.canonical ≠ first.canonical := by decide +kernel
  have hparts : (Filter.any [first, old]).canonical ≠ low.canonical :=
    canonical_ne_of_holds_ne (fun _ => .int 1) (fun _ _ => 5) (by decide +kernel)
  simp only [low, first, old, ne_eq] at hleaves hparts
  simp [filter, normalize, pushNot, pushNotList, simplify, simplifyList, conjunction, disjunction,
    flattenAll, flattenAny, isNever, isAlways, distinctFrom, low, first, old, hleaves, hparts]

theorem disjunctive_filter (limit : Nat) (hlimit : 2 ≤ limit) :
    (Filter.all [low, .any [first, old]]).disjunctive? limit =
      some (.any [.all [low, first], .all [low, old]]) := by
  have hfirst : first.canonical ≠ low.canonical := by decide +kernel
  have hold : old.canonical ≠ low.canonical := by decide +kernel
  have hterms : (Filter.all [low, old]).canonical ≠ (Filter.all [low, first]).canonical :=
    canonical_ne_of_holds_ne (fun _ => .int 1) (fun _ _ => 0) (by decide +kernel)
  have hcount : (Filter.all [low, .any [first, old]]).termCount = 2 := by decide +kernel
  rw [disjunctive?, hcount, if_neg (by omega)]
  simp only [low, first, old, ne_eq] at hfirst hold hterms
  simp [terms, termsOfAll, termsOfAny, simplify, simplifyList, conjunction, disjunction, flattenAll,
    flattenAny, isNever, isAlways, distinctFrom, low, first, old, hfirst, hold, hterms]

theorem prepare_filter : filter.prepare {} = .ok
    { filter := .all [low, .any [first, old]],
      expanded := some (.any [.all [low, first], .all [low, old]]),
      termCount := 2, skipped := false } := by
  rw [prepare, normalize_filter]
  dsimp only
  rw [disjunctive_filter 100 (by decide)]
  rfl

end Layered

theorem prepared_standsFor_layered : ∃ prepared g k,
    Layered.filter.prepare {} = .ok prepared ∧ prepared.expanded = some g ∧
      Layered.filter.disjunctive? 1 = some k ∧ prepared.filter.StandsFor Layered.filter ∧
      g.StandsFor Layered.filter ∧ k.StandsFor Layered.filter := by
  obtain ⟨k, hk⟩ : ∃ k, Layered.filter.disjunctive? 1 = some k :=
    Option.isSome_iff_exists.1 (by decide +kernel)
  obtain ⟨hprepare, hdisjunctive⟩ := prepared_standsFor Layered.filter
  obtain ⟨hfilter, hform⟩ := hprepare {} _ Layered.prepare_filter
  exact ⟨_, _, k, Layered.prepare_filter, rfl, hk, hfilter, hform _ rfl, hdisjunctive 1 k hk⟩

end RecordLayer.Filter
