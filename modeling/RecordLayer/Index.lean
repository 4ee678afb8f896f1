/-!
# Indexes

An index orders the records of one type by its key fields. A rank index also keeps the ranking of
its single key field, and an index of another kind is maintained elsewhere and never planned.
-/

namespace RecordLayer

/-- What an index maintains. -/
inductive IndexKind
  /-- Ordered entries. -/
  | value
  /-- Ordered entries and the ranking of the key. -/
  | rank
  /-- Nothing that a plan can use. -/
  | other
deriving DecidableEq, Inhabited

namespace IndexKind

/-- The name of an index kind. -/
def name : IndexKind → String
  | value => "value"
  | rank => "rank"
  | other => "other"

end IndexKind

/-- An index over the records of one type. -/
structure Index where
  name : String
  recordType : String
  /-- The key fields, the leading one first. -/
  keyFields : List String
  /-- Whether no two records may share a key. -/
  unique : Bool
  kind : IndexKind
  /-- Fields whose values are kept next to the key. -/
  coveringFields : List String
deriving DecidableEq, Inhabited

namespace Index

/-- The first key field. -/
def leadingField? (i : Index) : Option String := i.keyFields.head?

/-- Whether plans may scan the index. -/
def isPlannable (i : Index) : Bool := i.kind != .other && !i.keyFields.isEmpty

/-- Whether the index keeps a ranking. -/
def isRank (i : Index) : Bool := i.kind = .rank

/-- Whether an entry carries the value of a field. -/
def storesField (i : Index) (field : String) : Bool :=
  i.keyFields.contains field || i.coveringFields.contains field

end Index

end RecordLayer
