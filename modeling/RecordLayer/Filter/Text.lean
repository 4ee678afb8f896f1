import RecordLayer.Filter
import RecordLayer.Value.Text

/-!
# Filters as text

`Filter.render` is for readers. `Filter.canonical` writes two filters alike exactly when they differ
only in the order of the children of a conjunction or disjunction and in the order and repetition of
listed values.
-/

namespace RecordLayer.Filter

mutual

/-- A filter for readers; nested combinations stand in parentheses. -/
def render : Filter → String
  | .compare field op value => field ++ " " ++ op.symbol ++ " " ++ value.render
  | .oneOf field values => field ++ " IN (" ++ ", ".intercalate (values.map Value.render) ++ ")"
  | .rank field op n => "rank(" ++ field ++ ") " ++ op.symbol ++ " " ++ toString n.toNat
  | .not child => "NOT (" ++ child.render ++ ")"
  | .all [] => "TRUE"
  | .any [] => "FALSE"
  | .all children => " AND ".intercalate (renderChildren children)
  | .any children => " OR ".intercalate (renderChildren children)

/-- The children of a combination, each in parentheses unless it is a leaf. -/
def renderChildren : List Filter → List String
  | [] => []
  | f :: rest => (if f.isLeaf then f.render else "(" ++ f.render ++ ")") :: renderChildren rest

end

/-- Texts in ascending order, separated by commas. -/
def joinSorted (texts : List String) : String := ",".intercalate (Text.sort texts)

mutual

/-- The canonical text of a filter. -/
def canonical : Filter → String
  | .compare field op value => Text.literal field ++ op.symbol ++ value.canonical
  | .oneOf field values =>
    Text.literal field ++ " in [" ++
      ",".intercalate ((Value.sortDistinct values).map Value.canonical) ++ "]"
  | .rank field op n =>
    "rank(" ++ Text.literal field ++ ")" ++ op.symbol ++ toString n.toNat
  | .not child => "not(" ++ child.canonical ++ ")"
  | .all children => "and(" ++ joinSorted (canonicalOfList children) ++ ")"
  | .any children => "or(" ++ joinSorted (canonicalOfList children) ++ ")"

/-- The canonical text of each filter of a list. -/
def canonicalOfList : List Filter → List String
  | [] => []
  | f :: rest => f.canonical :: canonicalOfList rest

end

theorem canonicalOfList_eq (fs : List Filter) : canonicalOfList fs = fs.map canonical := by
  induction fs with
  | nil => rfl
  | cons f rest ih => rw [canonicalOfList, ih, List.map_cons]

theorem canonical_all (fs : List Filter) :
    canonical (.all fs) = "and(" ++ joinSorted (fs.map canonical) ++ ")" := by
  rw [canonical, canonicalOfList_eq]

theorem canonical_any (fs : List Filter) :
    canonical (.any fs) = "or(" ++ joinSorted (fs.map canonical) ++ ")" := by
  rw [canonical, canonicalOfList_eq]

end RecordLayer.Filter
