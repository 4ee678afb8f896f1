import RecordLayer.Filter.Normal

/-!
# Disjunctive form

A disjunction of conjunctions of leaves that holds for the same records. The number of conjunctions
is known before any is built, so an expansion that would be too large is not started.
-/

namespace RecordLayer.Filter

/-- The largest count; larger ones are cut to it. -/
def maxCount : Nat := 0xffffffffffffffff

mutual

/-- How many conjunctions the expansion has, at most `maxCount`. -/
def termCount : Filter → Nat
  | .all children => termProduct 1 children
  | .any children => termSum 0 children
  | .compare .. | .oneOf .. | .rank .. | .not _ => 1

/-- Multiplies the counts of a list onto `count`, cut at every step. -/
def termProduct (count : Nat) : List Filter → Nat
  | [] => count
  | f :: rest => termProduct (min maxCount (count * f.termCount)) rest

/-- Adds the counts of a list onto `count`, cut at every step. -/
def termSum (count : Nat) : List Filter → Nat
  | [] => count
  | f :: rest => termSum (min maxCount (count + f.termCount)) rest

end

mutual

/-- The conjunctions of the expansion, each as a list of leaves. -/
def terms : Filter → List (List Filter)
  | .any children => termsOfAny children
  | .all children => termsOfAll children
  | .compare field op value => [[.compare field op value]]
  | .oneOf field values => [[.oneOf field values]]
  | .rank field op n => [[.rank field op n]]
  | .not child => [[.not child]]

/-- The conjunctions of each child in turn. -/
def termsOfAny : List Filter → List (List Filter)
  | [] => []
  | f :: rest => f.terms ++ termsOfAny rest

/-- One conjunction of each child, combined in every way, the last child varying fastest. -/
def termsOfAll : List Filter → List (List Filter)
  | [] => [[]]
  | f :: rest =>
    let tails := termsOfAll rest
    f.terms.flatMap fun term => tails.map (term ++ ·)

end

/-- The disjunctive form, unless it would have more than `limit` conjunctions. -/
def disjunctive? (f : Filter) (limit : Nat) : Option Filter :=
  if limit < f.termCount then none
  else some (Filter.any (f.terms.map .all)).simplify

end RecordLayer.Filter
