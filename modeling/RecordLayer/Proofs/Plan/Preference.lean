import Mathlib.Algebra.Order.Field.Rat
import Mathlib.Algebra.Order.Ring.NNRat
import Mathlib.Tactic.Linarith
import Mathlib.Tactic.NormNum
import RecordLayer.Plan.Preference

/-!
# Near ties can drift

Costed plans are compared by total, except that totals within a twentieth of each other are compared
by the number of scans first. That is no order of its own accord: near ties add up. Of three totals
that rise in steps of less than a twentieth, but by more than that from the first to the last, each
later one can win against its neighbour by its fewer scans, while the first one wins against the
last by its total. `Drifts` says that three weighed plans stand so.

**Nothing else goes wrong.** Totals are read as exact numbers here. In a set of plans of which no
three drift, preference is transitive, the pick from a list is as good as everything in the list,
and up to plans that compare as equal it does not depend on the order of the list. Each of the three
fails as soon as three plans drift.

* Of three plans that are preferred in a circle, take the one with the least total. The plan
  preferred to it has to be a near tie, and so has the one before, or the three drift.
* Three near ties are compared by scans, total, rows and text in turn, which is transitive.
-/

namespace RecordLayer.Plan

/-! ## Near ties -/

/-- Totals at most a twentieth of the larger one apart. -/
def Near (a b : NNRat) : Prop := max (a - b) (b - a) ≤ 1 / 20 * max a b

instance (a b : NNRat) : Decidable (Near a b) := inferInstanceAs (Decidable (_ ≤ _))

theorem near_comm {a b : NNRat} : Near a b ↔ Near b a := by
  rw [Near, Near, max_comm (a - b), max_comm a]

theorem near_iff {a b : NNRat} (h : a ≤ b) : Near a b ↔ 19 * b ≤ 20 * a := by
  have htwentieth : b ≤ 1 / 20 * b + a ↔ 19 * b ≤ 20 * a := by
    rw [← NNRat.coe_le_coe, ← NNRat.coe_le_coe]
    push_cast
    constructor <;> intro hab <;> linarith
  rw [Near, tsub_eq_zero_of_le h, max_eq_right h, max_eq_right zero_le, tsub_le_iff_right,
    htwentieth]

theorem near_self (a : NNRat) : Near a a :=
  (near_iff le_rfl).2 (mul_le_mul_left (by norm_num) a)

/-- Totals between two near ones are near them. -/
theorem near_of_between {a b c : NNRat} (hab : a ≤ b) (hbc : b ≤ c) (h : Near a c) :
    Near a b ∧ Near b c := by
  rw [near_iff (hab.trans hbc)] at h
  rw [near_iff hab, near_iff hbc]
  exact ⟨(mul_le_mul_right hbc 19).trans h, h.trans (mul_le_mul_right hab 20)⟩

namespace Weighed

/-! ## Comparing by exact totals -/

/-- Compares two plans as their costs are compared, with exact numbers for totals. -/
def compareExactly (a b : Weighed NNRat) : Ordering := a.compareWith (1 / 20) compare b

/-- Compares two plans by scans, total, rows and text. -/
abbrev compareNear : Weighed NNRat → Weighed NNRat → Ordering :=
  compareLex (compareLex (compareOn (·.plan.scanCount)) (compareOn (·.total)))
    (compareLex (compareOn (·.rows)) (compareOn (·.plan.explain)))

variable {a b c x y z : Weighed NNRat}

theorem compareExactly_of_near (h : Near a.total b.total) :
    a.compareExactly b = compareNear a b := by
  unfold Near at h
  rw [compareExactly, compareWith, compareTotals, if_pos h]
  rfl

theorem compareExactly_of_far (h : ¬Near a.total b.total) :
    a.compareExactly b = compare a.total b.total := by
  have hne : compare a.total b.total ≠ .eq := fun heq =>
    h (compare_eq_iff_eq.1 heq ▸ near_self a.total)
  unfold Near at h
  rw [compareExactly, compareWith, compareTotals, if_neg h]
  cases hc : compare a.total b.total with
  | lt | gt => rfl
  | eq => exact absurd hc hne

theorem compareExactly_swap (a b : Weighed NNRat) :
    a.compareExactly b = (b.compareExactly a).swap := by
  by_cases h : Near a.total b.total
  · rw [compareExactly_of_near h, compareExactly_of_near (near_comm.1 h)]
    exact Std.OrientedCmp.eq_swap
  · rw [compareExactly_of_far h, compareExactly_of_far fun h' => h (near_comm.1 h')]
    exact Std.OrientedOrd.eq_swap

/-- A plan that is not worse and no near tie has a lower total. -/
theorem total_lt_of_far (h : ¬Near a.total b.total) (hab : a.compareExactly b ≠ .gt) :
    a.total < b.total := by
  rw [compareExactly_of_far h, ne_eq, compare_gt_iff_gt, not_lt] at hab
  exact lt_of_le_of_ne hab fun heq => h (heq ▸ near_self a.total)

/-- A plan that is not worse and a near tie has fewer scans, or as many and no higher total. -/
theorem scans_of_near (h : Near a.total b.total) (hab : a.compareExactly b ≠ .gt) :
    a.plan.scanCount < b.plan.scanCount ∨
      a.plan.scanCount = b.plan.scanCount ∧ a.total ≤ b.total := by
  rw [compareExactly_of_near h, ne_eq, Ordering.ne_gt_iff_isLE] at hab
  have hfirst := (Ordering.isLE_then_iff_and.1 hab).1
  rcases Ordering.isLE_then_iff_or.1 hfirst with hscans | ⟨hscans, htotal⟩
  · exact .inl (Nat.compare_eq_lt.1 hscans)
  · exact .inr ⟨Nat.compare_eq_eq.1 hscans, compare_le_iff_le.1 (Ordering.ne_gt_iff_isLE.2 htotal)⟩

/-- Fewer scans win a near tie. -/
theorem lt_of_fewer_scans (h : Near a.total b.total)
    (hscans : a.plan.scanCount < b.plan.scanCount) :
    a.compareExactly b = .lt := by
  have hlt : compare a.plan.scanCount b.plan.scanCount = .lt := Nat.compare_eq_lt.2 hscans
  rw [compareExactly_of_near h]
  simp [compareNear, compareLex, compareOn, hlt]

/-! ## Drifting -/

/-- Three plans with rising totals and falling scans, of which the first and the last are not near
while the middle one is near both. -/
structure Drifts (x y z : Weighed NNRat) : Prop where
  first : Near x.total y.total
  second : Near y.total z.total
  apart : ¬Near x.total z.total
  rises : x.total < z.total
  fewer : y.plan.scanCount < x.plan.scanCount
  fewest : z.plan.scanCount < y.plan.scanCount

/-- Three plans that drift are preferred in a circle. -/
theorem Drifts.circle (h : Drifts x y z) :
    y.compareExactly x = .lt ∧ z.compareExactly y = .lt ∧ x.compareExactly z = .lt := by
  refine ⟨lt_of_fewer_scans (near_comm.1 h.first) h.fewer,
    lt_of_fewer_scans (near_comm.1 h.second) h.fewest, ?_⟩
  rw [compareExactly_of_far h.apart]
  exact compare_lt_iff_lt.2 h.rises

theorem gt_of_lt (h : a.compareExactly b = .lt) : b.compareExactly a = .gt := by
  rw [compareExactly_swap, h]
  rfl

/-- Three plans preferred in a circle, read from the one with the least total: they are near each
other, or they drift. -/
theorem near_or_drifts_of_least (hab : a.compareExactly b ≠ .gt) (hbc : b.compareExactly c ≠ .gt)
    (hca : c.compareExactly a ≠ .gt) (hb : a.total ≤ b.total) (hc : a.total ≤ c.total) :
    (Near a.total b.total ∧ Near b.total c.total ∧ Near a.total c.total) ∨ Drifts a c b := by
  have hnear_ca : Near c.total a.total := by
    by_contra hfar
    exact absurd (total_lt_of_far hfar hca) (not_lt.2 hc)
  have hnear_ac := near_comm.1 hnear_ca
  -- a gap from `b` up to `c` would put `b` between two near totals
  have hnear_bc : Near b.total c.total := by
    by_contra hfar
    exact hfar (near_of_between hb (total_lt_of_far hfar hbc).le hnear_ac).2
  by_cases hnear_ab : Near a.total b.total
  · exact .inl ⟨hnear_ab, hnear_bc, hnear_ac⟩
  have hlt : a.total < b.total := total_lt_of_far hnear_ab hab
  have hcb : c.total < b.total := by
    by_contra hle
    exact hnear_ab (near_of_between hb (not_lt.1 hle) hnear_ac).1
  have hac : a.total < c.total := by
    refine lt_of_le_of_ne hc fun heq => hnear_ab ?_
    rw [heq]
    exact near_comm.1 hnear_bc
  refine .inr ⟨hnear_ac, near_comm.1 hnear_bc, hnear_ab, hlt, ?_, ?_⟩
  · exact (scans_of_near hnear_ca hca).resolve_right fun h => absurd hac (not_lt.2 h.2)
  · exact (scans_of_near hnear_bc hbc).resolve_right fun h => absurd hcb (not_lt.2 h.2)

/-- Near ties are compared transitively. -/
theorem compareExactly_trans_of_near (hab : Near a.total b.total) (hbc : Near b.total c.total)
    (hac : Near a.total c.total) (h₁ : a.compareExactly b ≠ .gt) (h₂ : b.compareExactly c ≠ .gt) :
    a.compareExactly c ≠ .gt := by
  rw [compareExactly_of_near hab, ne_eq, Ordering.ne_gt_iff_isLE] at h₁
  rw [compareExactly_of_near hbc, ne_eq, Ordering.ne_gt_iff_isLE] at h₂
  rw [compareExactly_of_near hac, ne_eq, Ordering.ne_gt_iff_isLE]
  exact Std.TransCmp.isLE_trans h₁ h₂

end Weighed

open Weighed

/-! ## Picking from a list -/

section Picking

variable {α : Type} {cmp : α → α → Ordering} {S : Set α}

/-- Being at least as good is passed on within a set. -/
def TransitiveOn (cmp : α → α → Ordering) (S : Set α) : Prop :=
  ∀ a ∈ S, ∀ b ∈ S, ∀ c ∈ S, cmp a b ≠ .gt → cmp b c ≠ .gt → cmp a c ≠ .gt

/-- The pick from a list over a set is at least as good as everything in the list. -/
def PicksLeast (cmp : α → α → Ordering) (S : Set α) : Prop :=
  ∀ candidates : List α, (∀ a ∈ candidates, a ∈ S) →
    ∀ best, best? cmp candidates = some best → ∀ a ∈ candidates, cmp best a ≠ .gt

/-- The picks from two arrangements of a list over a set compare as equal. -/
def PicksAlike (cmp : α → α → Ordering) (S : Set α) : Prop :=
  ∀ candidates others : List α, (∀ a ∈ candidates, a ∈ S) → candidates.Perm others →
    ∀ best best', best? cmp candidates = some best → best? cmp others = some best' →
      cmp best best' = .eq

variable (hswap : ∀ a b, cmp a b = (cmp b a).swap)

include hswap

theorem not_gt_self (a : α) : cmp a a ≠ .gt := fun h => by
  have := hswap a a
  rw [h] at this
  cases this

theorem bestFrom_not_gt (htrans : TransitiveOn cmp S) :
    ∀ {rest : List α} {best : α}, (∀ a ∈ best :: rest, a ∈ S) →
      ∀ a ∈ best :: rest, cmp (bestFrom cmp best rest) a ≠ .gt := by
  intro rest
  induction rest with
  | nil =>
    intro best _ a ha
    obtain rfl := List.mem_singleton.1 ha
    exact not_gt_self hswap a
  | cons b rest ih =>
    intro best hS
    rw [bestFrom]
    -- the better of the first two is at least as good as both
    obtain ⟨better, hbetter, hmem, hbest, hb⟩ : ∃ better,
        (if cmp best b == .gt then b else best) = better ∧ (better = best ∨ better = b) ∧
          cmp better best ≠ .gt ∧ cmp better b ≠ .gt := by
      by_cases hgt : cmp best b = .gt
      · have hlt : cmp b best = .lt := by rw [hswap, hgt]; rfl
        exact ⟨b, if_pos (by simp [hgt]), .inr rfl, by simp [hlt], not_gt_self hswap b⟩
      · exact ⟨best, if_neg (by simpa using hgt), .inl rfl, not_gt_self hswap best, hgt⟩
    rw [hbetter]
    have hbetterS : better ∈ S := hmem.elim (fun h => h ▸ hS best (by simp))
      fun h => h ▸ hS b (by simp)
    have hS' : ∀ a ∈ better :: rest, a ∈ S := fun a ha =>
      (List.mem_cons.1 ha).elim (fun h => h ▸ hbetterS) fun h => hS a (by simp [h])
    have hpick := ih hS'
    have hpickS := hS' (bestFrom cmp better rest) mem_of_bestFrom
    intro a ha
    rcases List.mem_cons.1 ha with rfl | ha
    · exact htrans _ hpickS _ hbetterS _ (hS a (by simp)) (hpick better (by simp)) hbest
    rcases List.mem_cons.1 ha with rfl | ha
    · exact htrans _ hpickS _ hbetterS _ (hS a (by simp)) (hpick better (by simp)) hb
    · exact hpick a (by simp [ha])

theorem TransitiveOn.picksLeast (htrans : TransitiveOn cmp S) : PicksLeast cmp S := by
  rintro (_ | ⟨first, rest⟩) hS best hbest
  · cases hbest
  · obtain rfl := Option.some.inj hbest
    exact bestFrom_not_gt hswap htrans hS

theorem PicksLeast.picksAlike (hleast : PicksLeast cmp S) : PicksAlike cmp S := by
  intro candidates others hS hperm best best' hbest hbest'
  have h := hleast candidates hS best hbest best' (hperm.mem_iff.2 (mem_of_best hbest'))
  have h' := hleast others (fun a ha => hS a (hperm.mem_iff.2 ha)) best' hbest' best
    (hperm.mem_iff.1 (mem_of_best hbest))
  rw [hswap best' best] at h'
  cases hc : cmp best best' with
  | eq => rfl
  | gt => exact absurd hc h
  | lt => exact absurd (by rw [hc]; rfl) h'

end Picking

/-! ## Steady sets -/

/-- No three plans of the set drift. -/
def Steady (S : Set (Weighed NNRat)) : Prop :=
  ∀ x ∈ S, ∀ y ∈ S, ∀ z ∈ S, ¬Drifts x y z

variable {S : Set (Weighed NNRat)} {x y z : Weighed NNRat}

/-- In a set without drift, plans that are preferred in a circle are near each other: the circle is
read from its least total. -/
theorem Steady.transitiveOn (hS : Steady S) : TransitiveOn compareExactly S := by
  intro a ha b hb c hc hab hbc hac
  have hca : c.compareExactly a ≠ .gt := by
    rw [compareExactly_swap, hac]
    simp
  have hnear : Near a.total b.total ∧ Near b.total c.total ∧ Near a.total c.total := by
    rcases le_total a.total b.total with hle_ab | hle_ba
    · rcases le_total a.total c.total with hle_ac | hle_ca
      · exact (near_or_drifts_of_least hab hbc hca hle_ab hle_ac).resolve_right (hS a ha c hc b hb)
      · have h := (near_or_drifts_of_least hca hab hbc hle_ca (hle_ca.trans hle_ab)).resolve_right
          (hS c hc b hb a ha)
        exact ⟨h.2.1, near_comm.1 h.2.2, near_comm.1 h.1⟩
    · rcases le_total b.total c.total with hle_bc | hle_cb
      · have h := (near_or_drifts_of_least hbc hca hab hle_bc hle_ba).resolve_right
          (hS b hb a ha c hc)
        exact ⟨near_comm.1 h.2.2, h.1, near_comm.1 h.2.1⟩
      · have h := (near_or_drifts_of_least hca hab hbc (hle_cb.trans hle_ba) hle_cb).resolve_right
          (hS c hc b hb a ha)
        exact ⟨h.2.1, near_comm.1 h.2.2, near_comm.1 h.1⟩
  exact compareExactly_trans_of_near hnear.1 hnear.2.1 hnear.2.2 hab hbc hac

/-- Of three plans that drift, the last in the list of either arrangement is picked. -/
theorem Weighed.Drifts.picks (h : Drifts x y z) :
    best? compareExactly [x, y, z] = some z ∧ best? compareExactly [z, y, x] = some x := by
  obtain ⟨hyx, hzy, hxz⟩ := h.circle
  constructor
  · simp [best?, bestFrom, gt_of_lt hyx, gt_of_lt hzy]
  · simp [best?, bestFrom, hzy, gt_of_lt hxz]

theorem TransitiveOn.steady (hS : TransitiveOn compareExactly S) : Steady S := by
  intro x hx y hy z hz h
  obtain ⟨hyx, hzy, hxz⟩ := h.circle
  exact hS z hz y hy x hx (by simp [hzy]) (by simp [hyx]) (gt_of_lt hxz)

theorem PicksAlike.steady (hS : PicksAlike compareExactly S) : Steady S := by
  intro x hx y hy z hz h
  have hmem : ∀ a ∈ [x, y, z], a ∈ S := by simp [hx, hy, hz]
  have heq := hS [x, y, z] [z, y, x] hmem (List.reverse_perm [x, y, z]).symm z x h.picks.1 h.picks.2
  rw [gt_of_lt h.circle.2.2] at heq
  cases heq

/-- **Drift is all that goes wrong.** Preference is transitive on a set of plans, and the pick from
every list over the set is at least as good as everything in the list, and the pick does not depend
on the order of the list but for plans that compare as equal: each of the three exactly where no
three plans of the set drift. -/
theorem sound_iff_steady (S : Set (Weighed NNRat)) :
    (TransitiveOn compareExactly S ↔ Steady S) ∧ (PicksLeast compareExactly S ↔ Steady S) ∧
      (PicksAlike compareExactly S ↔ Steady S) := by
  have hleast : Steady S → PicksLeast compareExactly S := fun h =>
    h.transitiveOn.picksLeast compareExactly_swap
  have halike : PicksLeast compareExactly S → PicksAlike compareExactly S :=
    PicksLeast.picksAlike compareExactly_swap
  exact ⟨⟨TransitiveOn.steady, Steady.transitiveOn⟩, ⟨fun h => (halike h).steady, hleast⟩,
    ⟨PicksAlike.steady, fun h => halike (hleast h)⟩⟩

/-! ## Costs that drift -/

/-- The exact number that the total of a cost stands for. -/
def exactTotal (c : QueryCost) : NNRat :=
  let (num, den) := (Double.ofFloat c.total).toRatio
  num / den

/-- Plans weighed by costs from raw estimates. -/
def Costed : Set (Weighed NNRat) :=
  {w | ∃ io cpu rows, let cost := QueryCost.ofEstimates io cpu rows
    w.total = exactTotal cost ∧ w.rows = cost.rows}

namespace Sample

/-- A plan of full scans, as many as given. -/
def scans (count : Nat) : Plan := .union (List.replicate count (.fullScan "t")) none none

/-- A cost of input and output alone. -/
def costs (io : Float) : QueryCost := .ofEstimates io 0 10

def weighed (count : Nat) (io : Float) : Weighed NNRat :=
  ⟨scans count, exactTotal (costs io), (costs io).rows⟩

theorem weighed_mem_costed (count : Nat) (io : Float) : weighed count io ∈ Costed :=
  ⟨io, 0, 10, rfl, rfl⟩

theorem drifts : Drifts (weighed 3 100) (weighed 2 104) (weighed 1 108) := by
  have h₁ : exactTotal (costs 100) = 100 := by decide +kernel
  have h₂ : exactTotal (costs 104) = 104 := by decide +kernel
  have h₃ : exactTotal (costs 108) = 108 := by decide +kernel
  constructor <;> simp only [weighed, h₁, h₂, h₃] <;> decide +kernel

end Sample

/-- Costs drift, so on plans with any costs preference is not transitive, the pick can be worse than
another candidate, and it depends on the order of the candidates. The floats of the costs behave
alike: a plan of one scan for 108 wins against one of two scans for 104, that one against three
scans for 100, and that one against the first. -/
theorem costs_drift :
    ¬TransitiveOn compareExactly Costed ∧ ¬PicksLeast compareExactly Costed ∧
      ¬PicksAlike compareExactly Costed ∧
      compareCosted (Sample.scans 1) (Sample.costs 108) (Sample.scans 2) (Sample.costs 104) = .lt ∧
      compareCosted (Sample.scans 2) (Sample.costs 104) (Sample.scans 3) (Sample.costs 100) = .lt ∧
      compareCosted (Sample.scans 1) (Sample.costs 108) (Sample.scans 3) (Sample.costs 100) =
        .gt := by
  have hsteady : ¬Steady Costed := fun h =>
    h _ (Sample.weighed_mem_costed 3 100) _ (Sample.weighed_mem_costed 2 104) _
      (Sample.weighed_mem_costed 1 108) Sample.drifts
  refine ⟨fun h => hsteady h.steady, fun h => hsteady ?_, fun h => hsteady h.steady, ?_, ?_, ?_⟩
  · exact (h.picksAlike compareExactly_swap).steady
  · decide +kernel
  · decide +kernel
  · decide +kernel

end RecordLayer.Plan
