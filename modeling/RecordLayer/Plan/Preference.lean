import RecordLayer.Plan.Estimate

/-!
# Preference

Which of two plans is better. With table statistics the cheaper one is, but totals within a
twentieth of each other are a near tie, which goes to the plan that opens fewer scans. Without
statistics, combined index plans come before single index scans and those before full scans.
-/

namespace RecordLayer.Plan

/-- Compares two totals of a linearly ordered kind of number. Totals whose distance is at most
`ratio` of the larger one are compared by scans first. -/
def compareTotals {α : Type} [Sub α] [Mul α] [Max α] [LE α] [DecidableLE α] (ratio : α)
    (exact : α → α → Ordering) (a b : α) (scansA scansB : Nat) : Ordering :=
  if max (a - b) (b - a) ≤ ratio * max a b then (compare scansA scansB).then (exact a b)
  else exact a b

/-- A plan with what it is weighed by: a total, in some kind of number, and rows. -/
structure Weighed (α : Type) where
  plan : Plan
  total : α
  rows : Int64

/-- Compares two plans by their totals with near ties, then by rows, then by text. -/
def Weighed.compareWith {α : Type} [Sub α] [Mul α] [Max α] [LE α] [DecidableLE α] (ratio : α)
    (exact : α → α → Ordering) (a b : Weighed α) : Ordering :=
  (compareTotals ratio exact a.total b.total a.plan.scanCount b.plan.scanCount).then
    ((compare a.rows b.rows).then (compare a.plan.explain b.plan.explain))

/-- Compares two floats by their bits. -/
def compareFloats (a b : Float) : Ordering := compare (Double.ofFloat a) (Double.ofFloat b)

/-- Compares two plans by their costs. -/
def compareCosted (a : Plan) (ca : QueryCost) (b : Plan) (cb : QueryCost) : Ordering :=
  Weighed.compareWith (0.05 : Float) compareFloats ⟨a, ca.total, ca.rows⟩ ⟨b, cb.total, cb.rows⟩

/-- Compares two plans by their estimated costs. -/
def compareByCost (m : CostModel) (a b : Plan) : Ordering :=
  compareCosted a (m.estimate a) b (m.estimate b)

/-- The group of a plan when nothing is known about its cost. -/
def heuristicRank (p : Plan) : Nat :=
  match p.accessPath with
  | .intersection .. => 0
  | .union .. => 1
  | .inJoin .. => 2
  | .indexScan _ => 3
  | _ => 4

/-- Compares optional texts, an absent one first. -/
def compareOptional : Option String → Option String → Ordering
  | none, none => .eq
  | none, some _ => .lt
  | some _, none => .gt
  | some a, some b => compare a b

/-- Compares two plans by group, then leftmost index, then text. -/
def compareHeuristically (a b : Plan) : Ordering :=
  (compare a.heuristicRank b.heuristicRank).then
    ((compareOptional a.firstIndex? b.firstIndex?).then (compare a.explain b.explain))

/-- The better of a candidate and those of a list; the earlier one of two that compare as equal. -/
def bestFrom {α : Type} (cmp : α → α → Ordering) (best : α) : List α → α
  | [] => best
  | a :: rest => bestFrom cmp (if cmp best a == .gt then a else best) rest

/-- The best candidate of a list. -/
def best? {α : Type} (cmp : α → α → Ordering) : List α → Option α
  | [] => none
  | a :: rest => some (bestFrom cmp a rest)

section Best

variable {α : Type} {cmp : α → α → Ordering}

theorem mem_of_bestFrom : ∀ {candidates : List α} {best : α},
    bestFrom cmp best candidates ∈ best :: candidates
  | [], best => by simp [bestFrom]
  | a :: rest, best => by
    have hmem : bestFrom cmp (if cmp best a == .gt then a else best) rest ∈
        (if cmp best a == .gt then a else best) :: rest := mem_of_bestFrom
    rw [bestFrom]
    rcases List.mem_cons.1 hmem with heq | hmem
    · rw [heq]
      split <;> simp
    · exact List.mem_cons_of_mem _ (List.mem_cons_of_mem _ hmem)

/-- The best candidate of a list is one of the list. -/
theorem mem_of_best {candidates : List α} {m : α} (h : best? cmp candidates = some m) :
    m ∈ candidates := by
  cases candidates with
  | nil => cases h
  | cons a rest =>
    obtain rfl := Option.some.inj h
    exact mem_of_bestFrom

end Best

end RecordLayer.Plan
