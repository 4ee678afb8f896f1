/-!
# Sorted texts

Texts in ascending order of their code points, which is also the order of their UTF-8 bytes.
-/

namespace RecordLayer.Text

/-- Whether `a` does not sort after `b`. -/
def le (a b : String) : Bool := !(b < a)

/-- The texts in ascending order. -/
def sort (texts : List String) : List String := texts.mergeSort le

/-- Drops each text that equals the one before it. -/
def dedupAdjacent : List String → List String
  | [] => []
  | [a] => [a]
  | a :: b :: rest => if a = b then dedupAdjacent (b :: rest) else a :: dedupAdjacent (b :: rest)

/-- The distinct texts in ascending order. -/
def sortDistinct (texts : List String) : List String := dedupAdjacent (sort texts)

end RecordLayer.Text
