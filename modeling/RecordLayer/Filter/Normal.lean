import RecordLayer.Filter.Text

/-!
# Normal filters

`Filter.normalize` moves negations to the leaves, flattens nested combinations, drops repeated
children, collapses a combination of one child, folds constants, and sorts listed values. The result
holds for the same records.
-/

namespace RecordLayer.Filter

/-- Membership in a list, with the values sorted and distinct: a list of one is an equality, and an
empty one never holds. -/
def membership (field : String) (values : List Value) : Filter :=
  match Value.sortDistinct values with
  | [] => never
  | [value] => .compare field .eq value
  | sorted => .oneOf field sorted

/-- The negation of `membership`. -/
def nonMembership (field : String) (values : List Value) : Filter :=
  match Value.sortDistinct values with
  | [] => always
  | [value] => .compare field .ne value
  | sorted => .not (.oneOf field sorted)

mutual

/-- The filter, negated if asked for, with negations only in front of membership tests. -/
def pushNot (negated : Bool) : Filter → Filter
  | .compare field op value => .compare field (if negated then op.negate else op) value
  | .rank field op n => .rank field (if negated then op.negate else op) n
  | .oneOf field values => if negated then nonMembership field values else membership field values
  | .not child => child.pushNot !negated
  | .all children =>
    let children := pushNotList negated children
    if negated then .any children else .all children
  | .any children =>
    let children := pushNotList negated children
    if negated then .all children else .any children

/-- `pushNot` on each filter of a list. -/
def pushNotList (negated : Bool) : List Filter → List Filter
  | [] => []
  | f :: rest => f.pushNot negated :: pushNotList negated rest

end

/-- The children that a filter adds to a conjunction: its own if it is one. -/
def flattenAll : Filter → List Filter
  | .all children => children
  | f => [f]

/-- The children that a filter adds to a disjunction: its own if it is one. -/
def flattenAny : Filter → List Filter
  | .any children => children
  | f => [f]

/-- Keeps the first filter of each canonical text that is not among `seen`. -/
def distinctFrom (seen : List String) : List Filter → List Filter
  | [] => []
  | f :: rest =>
    let text := f.canonical
    if seen.contains text then distinctFrom seen rest else f :: distinctFrom (text :: seen) rest

/-- A conjunction of filters that are simple themselves. -/
def conjunction (children : List Filter) : Filter :=
  if children.any isNever then never
  else
    match distinctFrom [] (children.flatMap flattenAll) with
    | [f] => f
    | fs => .all fs

/-- A disjunction of filters that are simple themselves. -/
def disjunction (children : List Filter) : Filter :=
  if children.any isAlways then always
  else
    match distinctFrom [] (children.flatMap flattenAny) with
    | [f] => f
    | fs => .any fs

mutual

/-- Flattens combinations, folds constants, drops repeated children and collapses single ones. -/
def simplify : Filter → Filter
  | .all children => conjunction (simplifyList children)
  | .any children => disjunction (simplifyList children)
  | .not child => .not child.simplify
  | .compare field op value => .compare field op value
  | .oneOf field values => .oneOf field values
  | .rank field op n => .rank field op n

/-- `simplify` on each filter of a list. -/
def simplifyList : List Filter → List Filter
  | [] => []
  | f :: rest => f.simplify :: simplifyList rest

end

/-- The normal form of a filter. -/
def normalize (f : Filter) : Filter := (f.pushNot false).simplify

end RecordLayer.Filter
