import RecordLayer.Double

/-!
# Field values

A field of a record holds a null, a truth value, an integer, a double or a text. Values of different
kinds are ordered by kind, values of one kind by their content; doubles follow their total order and
texts their code points. Two values compare as equal only if they are the same value.
-/

namespace RecordLayer

/-- A field value. -/
inductive Value
  | null
  | bool (b : Bool)
  | int (i : Int64)
  | double (d : Double)
  | text (s : String)
deriving DecidableEq, Hashable, Inhabited

namespace Value

/-- The kinds of values, in the order in which they sort. -/
inductive Kind
  | null
  | bool
  | int
  | double
  | text
deriving DecidableEq, Hashable, Inhabited

namespace Kind

/-- The place of a kind in the order. -/
def rank : Kind → Nat
  | null => 0
  | bool => 1
  | int => 2
  | double => 3
  | text => 4

/-- The name of a kind. -/
def name : Kind → String
  | null => "null"
  | bool => "bool"
  | int => "int"
  | double => "double"
  | text => "string"

end Kind

/-- The kind of a value. -/
def kind : Value → Kind
  | null => .null
  | bool _ => .bool
  | int _ => .int
  | double _ => .double
  | text _ => .text

/-- Whether a value is the null. -/
def isNull : Value → Bool
  | null => true
  | _ => false

/-- By kind first, then by content. -/
protected def compare : Value → Value → Ordering
  | bool a, bool b => Ord.compare a b
  | int a, int b => Ord.compare a b
  | double a, double b => Ord.compare a b
  | text a, text b => Ord.compare a b
  | a, b => Ord.compare a.kind.rank b.kind.rank

instance : Ord Value := ⟨Value.compare⟩

/-- Whether `a` sorts strictly before `b`. -/
def lt (a b : Value) : Bool := a.compare b == .lt

/-- Whether `a` does not sort after `b`. -/
def le (a b : Value) : Bool := a.compare b != .gt

/-- The number behind an integer or a finite double. -/
def toFloat? : Value → Option Float
  | int i => some i.toFloat
  | double d => if d.isFinite then some d.toFloat else none
  | _ => none

/-- The content of an integer value. -/
def int? : Value → Option Int64
  | int i => some i
  | _ => none

/-- The content of a double value. -/
def double? : Value → Option Double
  | double d => some d
  | _ => none

/-- The content of a text value. -/
def text? : Value → Option String
  | text s => some s
  | _ => none

/-- Lists of values in lexicographic order, a proper initial part first. -/
def compareLists : List Value → List Value → Ordering
  | [], [] => .eq
  | [], _ :: _ => .lt
  | _ :: _, [] => .gt
  | a :: as, b :: bs => (a.compare b).then (compareLists as bs)

/-- The values in ascending order; equal ones keep their places. -/
def sort (vs : List Value) : List Value := vs.mergeSort le

/-- Drops each value that equals the one before it. -/
def dedupAdjacent : List Value → List Value
  | [] => []
  | [a] => [a]
  | a :: b :: rest => if a = b then dedupAdjacent (b :: rest) else a :: dedupAdjacent (b :: rest)

/-- The distinct values in ascending order. -/
def sortDistinct (vs : List Value) : List Value := dedupAdjacent (sort vs)

end Value

end RecordLayer
