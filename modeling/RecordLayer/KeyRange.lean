import RecordLayer.Value.Text

/-!
# Key ranges

A contiguous part of an index: the keys that begin with given values and whose next component lies
within bounds. Keys are compared from left to right, and a key comes before its extensions.
-/

namespace RecordLayer

/-- One end of a range of values. -/
inductive Bound
  | unbounded
  | included (v : Value)
  | excluded (v : Value)
deriving DecidableEq, Inhabited

namespace Bound

/-- Whether there is no bound. -/
def isUnbounded : Bound → Bool
  | unbounded => true
  | _ => false

/-- The value at the bound. -/
def value? : Bound → Option Value
  | unbounded => none
  | included v | excluded v => some v

/-- Whether a value satisfies this as a lower bound. -/
def admitsAbove : Bound → Value → Bool
  | unbounded, _ => true
  | included l, v => l.le v
  | excluded l, v => l.lt v

/-- Whether a value satisfies this as an upper bound. -/
def admitsBelow : Bound → Value → Bool
  | unbounded, _ => true
  | included u, v => v.le u
  | excluded u, v => v.lt u

end Bound

/-- The keys that begin with `equal` and whose next component lies between the bounds. -/
structure KeyRange where
  equal : List Value := []
  lower : Bound := .unbounded
  upper : Bound := .unbounded
deriving DecidableEq, Inhabited

namespace KeyRange

/-- Whether a bound applies behind the equal part. -/
def hasRange (r : KeyRange) : Bool := !(r.lower.isUnbounded && r.upper.isUnbounded)

/-- A key that no key of the range comes before. -/
def startKey (r : KeyRange) : List Value := r.equal ++ r.lower.value?.toList

/-- Whether a key lies in the range. -/
def contains (r : KeyRange) (key : List Value) : Bool :=
  r.equal.isPrefixOf key &&
    match key[r.equal.length]? with
    | none => !r.hasRange
    | some next => r.lower.admitsAbove next && r.upper.admitsBelow next

/-- Whether a key lies past the range, and so does every later one that an ascending scan from the
start reaches. -/
def isPast (r : KeyRange) (key : List Value) : Bool :=
  !r.equal.isPrefixOf key ||
    match key[r.equal.length]? with
    | none => false
    | some next => !r.upper.admitsBelow next

/-- The bounds behind the equal part, as text. -/
def renderBounds (r : KeyRange) : List String :=
  let lower := match r.lower with
    | .unbounded => []
    | .included v => [">=" ++ v.render]
    | .excluded v => [">" ++ v.render]
  let upper := match r.upper with
    | .unbounded => []
    | .included v => ["<=" ++ v.render]
    | .excluded v => ["<" ++ v.render]
  lower ++ upper

/-- The range for readers. -/
def render (r : KeyRange) : String :=
  let bounds := if r.hasRange then [" ".intercalate r.renderBounds] else []
  "[" ++ ", ".intercalate (r.equal.map Value.render ++ bounds) ++ "]"

end KeyRange

end RecordLayer
