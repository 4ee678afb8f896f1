import RecordLayer.Filter.Text
import RecordLayer.KeyRange
import RecordLayer.Record.Type
import RecordLayer.Index
import RecordLayer.RowOrder

/-!
# Plans

A plan is a tree of ways to get at records: scans of a type or an index at the leaves, and above
them unions, intersections, filters and limits. This file holds the tree and what can be read off
it: the filter that its output satisfies, the order of the output, the scans it opens.
-/

namespace RecordLayer

/-- The part of an index that a scan reads. -/
inductive ScanBounds
  | keys (range : KeyRange)
  /-- The ranks from `start` on and below `stop`. -/
  | ranks (start : UInt64) (stop : Option UInt64)
deriving DecidableEq, Inhabited

/-- The largest rank. -/
def maxRank : UInt64 := 0xffffffffffffffff

/-- One more than a rank, at most `maxRank`. -/
def succRank (rank : UInt64) : UInt64 := if rank = maxRank then maxRank else rank + 1

namespace ScanBounds

/-- The window that holds exactly the ranks that a comparison accepts; there is none for "not
equal". -/
def rankWindow? (op : Comparator) (rank : UInt64) : Option (UInt64 × Option UInt64) :=
  match op with
  | .eq => some (rank, some (succRank rank))
  | .lt => some (0, some rank)
  | .le => some (0, some (succRank rank))
  | .gt => some (succRank rank, none)
  | .ge => some (rank, none)
  | .ne => none

/-- Whether this is a window that holds no rank. -/
def isEmptyWindow : ScanBounds → Bool
  | ranks start (some stop) => stop ≤ start
  | _ => false

/-- Whether this is a window of ranks. -/
def isRanks : ScanBounds → Bool
  | ranks .. => true
  | keys _ => false

/-- How many key fields are bound to one value. -/
def equalCount : ScanBounds → Nat
  | keys range => range.equal.length
  | ranks .. => 0

end ScanBounds

/-- A scan of one index. -/
structure IndexScan where
  index : Index
  bounds : ScanBounds
  /-- Whether records are made from the index entries alone. -/
  covering : Bool
  /-- The conditions that the bounds enforce. -/
  matched : List Filter
deriving Inhabited, DecidableEq

/-- How to get at the records of a query. -/
inductive Plan
  | fullScan (recordType : String)
  | indexScan (scan : IndexScan)
  /-- The records of any child. With a merge key every child is sorted by it and so is the output;
  otherwise the children are drained in turn. Repetitions of the `dedup` field are left out. -/
  | union (children : List Plan) (dedup : Option String) (merge : Option (List String))
  /-- The records of every child. Without a merge key the first child gives records and the filters
  of the others are checked. -/
  | intersection (children : List Plan) (merge : Option (List String))
  /-- One look-up for each value. -/
  | inJoin (field : String) (values : List Value) (index : Index) (batchSize : Nat)
  | filter (child : Plan) (residual : Filter)
  | limit (child : Plan) (count : Nat)
deriving Inhabited

namespace Plan

/-! ## Equality -/

mutual

/-- Decides whether two plans are the same tree. -/
def decEq : (a b : Plan) → Decidable (a = b)
  | .fullScan t, b =>
    match b with
    | .fullScan t' => decidable_of_iff (t = t') (by simp)
    | .indexScan _ | .union .. | .intersection .. | .inJoin .. | .filter .. | .limit .. =>
      isFalse nofun
  | .indexScan s, b =>
    match b with
    | .indexScan s' => decidable_of_iff (s = s') (by simp)
    | .fullScan _ | .union .. | .intersection .. | .inJoin .. | .filter .. | .limit .. =>
      isFalse nofun
  | .union as d m, b =>
    match b with
    | .union bs d' m' =>
      match decEqList as bs with
      | isTrue h => decidable_of_iff (d = d' ∧ m = m') (by simp [h])
      | isFalse h => isFalse fun e => h (by injection e)
    | .fullScan _ | .indexScan _ | .intersection .. | .inJoin .. | .filter .. | .limit .. =>
      isFalse nofun
  | .intersection as m, b =>
    match b with
    | .intersection bs m' =>
      match decEqList as bs with
      | isTrue h => decidable_of_iff (m = m') (by simp [h])
      | isFalse h => isFalse fun e => h (by injection e)
    | .fullScan _ | .indexScan _ | .union .. | .inJoin .. | .filter .. | .limit .. =>
      isFalse nofun
  | .inJoin f vs i n, b =>
    match b with
    | .inJoin f' vs' i' n' =>
      decidable_of_iff (f = f' ∧ vs = vs' ∧ i = i' ∧ n = n') (by simp)
    | .fullScan _ | .indexScan _ | .union .. | .intersection .. | .filter .. | .limit .. =>
      isFalse nofun
  | .filter a r, b =>
    match b with
    | .filter b r' =>
      match decEq a b with
      | isTrue h => decidable_of_iff (r = r') (by simp [h])
      | isFalse h => isFalse fun e => h (by injection e)
    | .fullScan _ | .indexScan _ | .union .. | .intersection .. | .inJoin .. | .limit .. =>
      isFalse nofun
  | .limit a n, b =>
    match b with
    | .limit b n' =>
      match decEq a b with
      | isTrue h => decidable_of_iff (n = n') (by simp [h])
      | isFalse h => isFalse fun e => h (by injection e)
    | .fullScan _ | .indexScan _ | .union .. | .intersection .. | .inJoin .. | .filter .. =>
      isFalse nofun

/-- Decides whether two lists hold the same plans. -/
def decEqList : (as bs : List Plan) → Decidable (as = bs)
  | [], [] => isTrue rfl
  | [], _ :: _ => isFalse nofun
  | _ :: _, [] => isFalse nofun
  | a :: as, b :: bs =>
    match decEq a b with
    | isFalse h => isFalse fun e => h (by injection e)
    | isTrue h =>
      match decEqList as bs with
      | isTrue t => isTrue (by rw [h, t])
      | isFalse t => isFalse fun e => t (by injection e)

end

instance : DecidableEq Plan := decEq

/-! ## Shape -/

/-- Puts a filter on a plan unless it is the empty conjunction. -/
def withResidual (p : Plan) (residual : Filter) : Plan :=
  if residual.isAlways then p else .filter p residual

/-- Puts a limit on a plan if there is one. -/
def withLimit (p : Plan) : Option Nat → Plan
  | some n => .limit p n
  | none => p

/-- The name of the root node. -/
def nodeName : Plan → String
  | .fullScan _ => "FullScan"
  | .indexScan scan => if scan.bounds.isRanks then "RankScan" else "IndexScan"
  | .union .. => "Union"
  | .intersection .. => "Intersection"
  | .inJoin .. => "InJoin"
  | .filter .. => "Filter"
  | .limit .. => "Limit"

/-- The plan under the filters and limits at the root. -/
def accessPath : Plan → Plan
  | .filter child _ | .limit child _ => child.accessPath
  | p => p

/-- The name of the access path. -/
def typeName (p : Plan) : String := p.accessPath.nodeName

mutual

/-- How many scans a plan opens; an IN-join opens one for each value. -/
def scanCount : Plan → Nat
  | .fullScan _ | .indexScan _ => 1
  | .inJoin _ values _ _ => max 1 values.length
  | .union children _ _ | .intersection children _ => scanCountOfList children
  | .filter child _ | .limit child _ => child.scanCount

/-- How many scans a list of plans opens. -/
def scanCountOfList : List Plan → Nat
  | [] => 0
  | p :: rest => p.scanCount + scanCountOfList rest

end

mutual

/-- The index of the leftmost index scan. -/
def firstIndex? : Plan → Option String
  | .fullScan _ => none
  | .indexScan scan => some scan.index.name
  | .inJoin _ _ index _ => some index.name
  | .union children _ _ | .intersection children _ => firstIndexOfList? children
  | .filter child _ | .limit child _ => child.firstIndex?

/-- The index of the leftmost index scan of a list of plans. -/
def firstIndexOfList? : List Plan → Option String
  | [] => none
  | p :: rest => p.firstIndex?.or (firstIndexOfList? rest)

end

mutual

/-- Whether a plan reports that it reads every record of a type. Only the first child of an
intersection is looked at, also of one that merges. -/
def usesFullScan : Plan → Bool
  | .fullScan _ => true
  | .indexScan _ | .inJoin .. => false
  | .union children _ _ => anyUsesFullScan children
  | .intersection children _ => headUsesFullScan children
  | .filter child _ | .limit child _ => child.usesFullScan

/-- Whether some plan of a list may read every record of a type. -/
def anyUsesFullScan : List Plan → Bool
  | [] => false
  | p :: rest => p.usesFullScan || anyUsesFullScan rest

/-- Whether the first plan of a list may read every record of a type. -/
def headUsesFullScan : List Plan → Bool
  | [] => false
  | p :: _ => p.usesFullScan

end

mutual

/-- The filter that holds exactly for the output, limits aside. -/
def matchingFilter : Plan → Filter
  | .fullScan _ => .always
  | .indexScan scan =>
    match scan.matched with
    | [f] => f
    | fs => .all fs
  | .union children _ _ => .any (matchingFilters children)
  | .intersection children _ => .all (matchingFilters children)
  | .inJoin field values _ _ => .oneOf field values
  | .filter child residual =>
    let inner := child.matchingFilter
    if inner.isAlways then residual else .all [inner, residual]
  | .limit child _ => child.matchingFilter

/-- The matching filter of each plan of a list. -/
def matchingFilters : List Plan → List Filter
  | [] => []
  | p :: rest => p.matchingFilter :: matchingFilters rest

end

mutual

/-- The order of the output, if there is one. -/
def order? (t : RecordType) : Plan → Option RowOrder
  | .fullScan _ => some ⟨[t.primaryKey], []⟩
  | .indexScan scan =>
    let bound := scan.bounds.equalCount
    let key := scan.index.keyFields
    some ⟨RowOrder.endingIn t.primaryKey (key.drop bound), key.take bound⟩
  | .inJoin _ _ index _ => some ⟨RowOrder.endingIn t.primaryKey index.keyFields, []⟩
  | .union _ _ merge => merge.map (⟨·, []⟩)
  | .intersection children merge =>
    match merge with
    | some key => some ⟨key, []⟩
    | none => headOrder? t children
  | .filter child _ | .limit child _ => child.order? t

/-- The order of the first plan of a list. -/
def headOrder? (t : RecordType) : List Plan → Option RowOrder
  | [] => none
  | p :: _ => p.order? t

end

/-- The order of each plan of a list. -/
def orders (t : RecordType) (plans : List Plan) : List (Option RowOrder) :=
  plans.map (·.order? t)

/-! ## Plans as text -/

/-- The line for the root node, without its children. -/
def describe : Plan → String
  | .fullScan recordType => "FullScan(" ++ recordType ++ ")"
  | .indexScan scan =>
    let covering := if scan.covering then ", covering" else ""
    match scan.bounds with
    | .keys range => "IndexScan(" ++ scan.index.name ++ ", " ++ range.render ++ covering ++ ")"
    | .ranks start stop =>
      let stop := match stop with
        | some stop => toString stop.toNat
        | none => "end"
      "RankScan(" ++ scan.index.name ++ ", [" ++ toString start.toNat ++ ", " ++ stop ++ ")" ++
        covering ++ ")"
  | .union _ dedup merge =>
    let dedup := match dedup with
      | some key => ["dedup=" ++ key]
      | none => []
    let merge := match merge with
      | some key => "merge=[" ++ ", ".intercalate key ++ "]"
      | none => "unordered"
    "Union(" ++ ", ".intercalate (dedup ++ [merge]) ++ ")"
  | .intersection _ (some key) => "Intersection(merge=[" ++ ", ".intercalate key ++ "])"
  | .intersection _ none => "Intersection(probe)"
  | .inJoin field values index batchSize =>
    "InJoin(" ++ field ++ ", " ++ toString values.length ++ " values, " ++ index.name ++
      ", batch=" ++ toString batchSize ++ ")"
  | .filter _ residual => "Filter(" ++ residual.render ++ ")"
  | .limit _ count => "Limit(" ++ toString count ++ ")"

/-- Two spaces for each level. -/
def indent (depth : Nat) : String := String.ofList (List.replicate (2 * depth) ' ')

mutual

/-- A plan as text from a depth on, a line for each node. -/
def explainFrom (depth : Nat) : Plan → String
  | .fullScan recordType => indent depth ++ (fullScan recordType).describe ++ "\n"
  | .indexScan scan => indent depth ++ (indexScan scan).describe ++ "\n"
  | .inJoin field values index batchSize =>
    indent depth ++ (inJoin field values index batchSize).describe ++ "\n"
  | .union children dedup merge =>
    indent depth ++ (union children dedup merge).describe ++ "\n" ++
      explainList (depth + 1) children
  | .intersection children merge =>
    indent depth ++ (intersection children merge).describe ++ "\n" ++
      explainList (depth + 1) children
  | .filter child residual =>
    indent depth ++ (filter child residual).describe ++ "\n" ++ child.explainFrom (depth + 1)
  | .limit child count =>
    indent depth ++ (limit child count).describe ++ "\n" ++ child.explainFrom (depth + 1)

/-- A list of plans as text from a depth on. -/
def explainList (depth : Nat) : List Plan → String
  | [] => ""
  | p :: rest => p.explainFrom depth ++ explainList depth rest

end

/-- A plan as text, a line for each node, children indented under their parent. -/
def explain (p : Plan) : String := p.explainFrom 0

end Plan

end RecordLayer
