import RecordLayer.Text.Order
import RecordLayer.Value

/-!
# Filters

A filter is a Boolean condition on one record: comparisons of fields with values, membership in a
list, comparisons of a field's rank, and their combinations. `Filter.holds` says what a filter means
for given field values and ranks. A conjunction of nothing is true, a disjunction of nothing false.
-/

namespace RecordLayer

/-- A comparison between two values of an ordered type. -/
inductive Comparator
  | eq
  | ne
  | lt
  | le
  | gt
  | ge
deriving DecidableEq, Inhabited, Hashable

namespace Comparator

/-- All comparators, in their usual order. -/
def all : List Comparator := [eq, ne, lt, le, gt, ge]

/-- The comparator that accepts exactly what this one refuses. -/
def negate : Comparator → Comparator
  | eq => ne
  | ne => eq
  | lt => ge
  | le => gt
  | gt => le
  | ge => lt

/-- How a comparator is written. -/
def symbol : Comparator → String
  | eq => "="
  | ne => "!="
  | lt => "<"
  | le => "<="
  | gt => ">"
  | ge => ">="

/-- Whether the comparator bounds values from below. -/
def isLowerBound (c : Comparator) : Bool := c = gt || c = ge

/-- Whether the comparator bounds values from above. -/
def isUpperBound (c : Comparator) : Bool := c = lt || c = le

/-- Whether an outcome of comparing a value with the expected one is accepted. -/
def accepts : Comparator → Ordering → Bool
  | eq, o => o == .eq
  | ne, o => o != .eq
  | lt, o => o == .lt
  | le, o => o != .gt
  | gt, o => o == .gt
  | ge, o => o != .lt

/-- Compares a value with the expected one. -/
def test (c : Comparator) (actual expected : Value) : Bool := c.accepts (actual.compare expected)

/-- Compares a rank with the expected one. -/
def testRank (c : Comparator) (actual expected : UInt64) : Bool :=
  c.accepts (compare actual expected)

end Comparator

/-- A condition on one record. -/
inductive Filter
  | compare (field : String) (op : Comparator) (value : Value)
  /-- Every child holds. -/
  | all (children : List Filter)
  /-- Some child holds. -/
  | any (children : List Filter)
  | not (child : Filter)
  /-- The field is one of the values. -/
  | oneOf (field : String) (values : List Value)
  /-- Compares the number of indexed values strictly below the field's value. -/
  | rank (field : String) (op : Comparator) (rank : UInt64)
deriving Inhabited

namespace Filter

/-! ## Equality -/

mutual

/-- Decides whether two filters are the same tree. -/
def decEq : (a b : Filter) → Decidable (a = b)
  | .compare f o v, b =>
    match b with
    | .compare f' o' v' => decidable_of_iff (f = f' ∧ o = o' ∧ v = v') (by simp)
    | .all _ | .any _ | .not _ | .oneOf .. | .rank .. => isFalse nofun
  | .all as, b =>
    match b with
    | .all bs =>
      match decEqList as bs with
      | isTrue h => isTrue (by rw [h])
      | isFalse h => isFalse fun e => h (by injection e)
    | .compare .. | .any _ | .not _ | .oneOf .. | .rank .. => isFalse nofun
  | .any as, b =>
    match b with
    | .any bs =>
      match decEqList as bs with
      | isTrue h => isTrue (by rw [h])
      | isFalse h => isFalse fun e => h (by injection e)
    | .compare .. | .all _ | .not _ | .oneOf .. | .rank .. => isFalse nofun
  | .not a, b =>
    match b with
    | .not b =>
      match decEq a b with
      | isTrue h => isTrue (by rw [h])
      | isFalse h => isFalse fun e => h (by injection e)
    | .compare .. | .all _ | .any _ | .oneOf .. | .rank .. => isFalse nofun
  | .oneOf f vs, b =>
    match b with
    | .oneOf f' vs' => decidable_of_iff (f = f' ∧ vs = vs') (by simp)
    | .compare .. | .all _ | .any _ | .not _ | .rank .. => isFalse nofun
  | .rank f o n, b =>
    match b with
    | .rank f' o' n' => decidable_of_iff (f = f' ∧ o = o' ∧ n = n') (by simp)
    | .compare .. | .all _ | .any _ | .not _ | .oneOf .. => isFalse nofun

/-- Decides whether two lists hold the same filters. -/
def decEqList : (as bs : List Filter) → Decidable (as = bs)
  | [], [] => isTrue rfl
  | [], _ :: _ => isFalse nofun
  | _ :: _, [] => isFalse nofun
  | a :: as, b :: bs =>
    match decEq a b with
    | isFalse h => isFalse fun e => h (by injection e)
    | isTrue h =>
      match decEqList as bs with
      | isTrue t => isTrue (by rw [h, t])
      | isFalse t => isFalse fun e => t (by injection e)

end

instance : DecidableEq Filter := decEq

/-! ## Shape -/


/-- The filter that every record satisfies. -/
def always : Filter := .all []

/-- The filter that no record satisfies. -/
def never : Filter := .any []

/-- Whether a filter is the empty conjunction. -/
def isAlways : Filter → Bool
  | .all [] => true
  | _ => false

/-- Whether a filter is the empty disjunction. -/
def isNever : Filter → Bool
  | .any [] => true
  | _ => false

/-- Whether a filter is a single test, possibly negated. -/
def isLeaf : Filter → Bool
  | .compare .. | .oneOf .. | .rank .. => true
  | .not child => child.isLeaf
  | .all _ | .any _ => false

/-- The field that a leaf tests. -/
def leafField? : Filter → Option String
  | .compare field .. | .oneOf field _ | .rank field .. => some field
  | .not child => child.leafField?
  | .all _ | .any _ => none

/-- The children of a conjunction, otherwise the filter itself. -/
def conjuncts : Filter → List Filter
  | .all children => children
  | f => [f]

mutual

/-- How deep a filter is nested; a single test has depth one. -/
def depth : Filter → Nat
  | .compare .. | .oneOf .. | .rank .. => 1
  | .not child => child.depth + 1
  | .all children | .any children => depthOfList children + 1

/-- The depth of the deepest filter of a list. -/
def depthOfList : List Filter → Nat
  | [] => 0
  | f :: rest => max f.depth (depthOfList rest)

end

mutual

/-- Every node of the tree, a parent before its children. -/
def nodes : Filter → List Filter
  | .not child => .not child :: child.nodes
  | .all children => .all children :: nodesOfList children
  | .any children => .any children :: nodesOfList children
  | .compare field op value => [.compare field op value]
  | .oneOf field values => [.oneOf field values]
  | .rank field op n => [.rank field op n]

/-- The nodes of each filter of a list in turn. -/
def nodesOfList : List Filter → List Filter
  | [] => []
  | f :: rest => f.nodes ++ nodesOfList rest

end

/-- The fields that occur anywhere in the tree, ascending. -/
def fields (f : Filter) : List String :=
  Text.sortDistinct (f.nodes.filterMap fun
    | .compare field .. | .oneOf field _ | .rank field .. => some field
    | _ => none)

/-- The fields whose rank is tested anywhere in the tree, ascending. -/
def rankFields (f : Filter) : List String :=
  Text.sortDistinct (f.nodes.filterMap fun
    | .rank field .. => some field
    | _ => none)

/-! ## Meaning -/

mutual

/-- What a filter means, given the values of the fields and the rank of each field's value. -/
def holds (value : String → Value) (rankOf : String → Value → UInt64) : Filter → Bool
  | .compare field op expected => op.test (value field) expected
  | .oneOf field values => values.contains (value field)
  | .rank field op expected => op.testRank (rankOf field (value field)) expected
  | .not child => !child.holds value rankOf
  | .all children => allHold value rankOf children
  | .any children => anyHolds value rankOf children

/-- Whether every filter of a list holds. -/
def allHold (value : String → Value) (rankOf : String → Value → UInt64) : List Filter → Bool
  | [] => true
  | f :: rest => f.holds value rankOf && allHold value rankOf rest

/-- Whether some filter of a list holds. -/
def anyHolds (value : String → Value) (rankOf : String → Value → UInt64) : List Filter → Bool
  | [] => false
  | f :: rest => f.holds value rankOf || anyHolds value rankOf rest

end

end Filter

end RecordLayer
