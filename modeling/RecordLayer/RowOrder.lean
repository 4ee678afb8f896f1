import RecordLayer.Text.Order

/-!
# Row orders

The order in which records come out of a plan: sorted by some fields, with other fields holding one
value throughout. Records sorted by a key can be merged on it, so what matters is whether an order
implies being sorted by a given key.
-/

namespace RecordLayer

/-- Records sorted by `fields`; each field of `constants` has the same value in all of them. -/
structure RowOrder where
  fields : List String
  constants : List String := []
deriving DecidableEq, Inhabited

namespace RowOrder

/-- The fields that are not constant. -/
def varying (o : RowOrder) (fields : List String) : List String :=
  fields.filter fun f => !o.constants.contains f

/-- Whether records in this order are also sorted by `target`. -/
def satisfies (o : RowOrder) (target : List String) : Bool :=
  (o.varying target).isPrefixOf (o.varying o.fields)

/-- The orders, if all are known. -/
def allKnown : List (Option RowOrder) → Option (List RowOrder)
  | [] => some []
  | none :: _ => none
  | some o :: rest => (allKnown rest).map (o :: ·)

/-- A key ending in the primary key that every order satisfies: the primary key alone if possible,
else the fields of the first order that serve. -/
def sharedMergeKey (orders : List (Option RowOrder)) (primaryKey : String) :
    Option (List String) := do
  let known ← allKnown orders
  let targets := [primaryKey] :: known.map (·.fields)
  (targets.filter (·.getLast? == some primaryKey)).find? fun t => known.all (·.satisfies t)

/-- The fields with the primary key in the last place only. -/
def endingIn (primaryKey : String) (fields : List String) : List String :=
  if fields.getLast? = some primaryKey then fields
  else fields.filter (· != primaryKey) ++ [primaryKey]

end RowOrder

end RecordLayer
