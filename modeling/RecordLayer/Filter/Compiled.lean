import RecordLayer.Filter
import RecordLayer.Store.View

/-!
# Compiled filters

A filter bound to a record type: every field is replaced by its position and every rank condition by
the index that answers it. Evaluating it reads values by position and asks the store for ranks only,
so it can fail only there.
-/

namespace RecordLayer

/-- A condition on the positions of a record. -/
inductive CompiledNode
  | compare (position : Nat) (op : Comparator) (value : Value)
  | oneOf (position : Nat) (values : List Value)
  | rank (position : Nat) (index : Index) (op : Comparator) (rank : UInt64)
  | not (child : CompiledNode)
  | all (children : List CompiledNode)
  | any (children : List CompiledNode)
deriving Inhabited

/-- A filter bound to a record type. -/
structure CompiledFilter where
  root : CompiledNode
  source : Filter
deriving Inhabited

namespace CompiledNode

mutual

/-- Binds a filter to a record type. -/
def ofFilter (catalog : Catalog) (t : RecordType) : Filter → Except SchemaError CompiledNode
  | .compare field op value => do return .compare (← t.position field) op value
  | .oneOf field values => do return .oneOf (← t.position field) values
  | .rank field op n => do
    let position ← t.position field
    match catalog.rankIndex? t.name field with
    | some index => return .rank position index op n
    | none => throw (.missingRankIndex t.name field)
  | .not child => do return .not (← ofFilter catalog t child)
  | .all children => do return .all (← ofFilters catalog t children)
  | .any children => do return .any (← ofFilters catalog t children)

/-- Binds each filter of a list; the first failure counts. -/
def ofFilters (catalog : Catalog) (t : RecordType) :
    List Filter → Except SchemaError (List CompiledNode)
  | [] => return []
  | f :: rest => do
    let node ← ofFilter catalog t f
    return node :: (← ofFilters catalog t rest)

end

mutual

/-- Whether a record satisfies a condition; children are looked at only until the
outcome is known. -/
def eval (v : StoreView) (r : Record) : CompiledNode → Reading Bool
  | .compare position op value => return op.test (r.get position) value
  | .oneOf position values => return values.contains (r.get position)
  | .rank position index op n => return op.testRank (← v.rankOf index (r.get position)) n
  | .not child => return !(← eval v r child)
  | .all children => evalAll v r children
  | .any children => evalAny v r children

/-- Whether a record satisfies every condition of a list. -/
def evalAll (v : StoreView) (r : Record) : List CompiledNode → Reading Bool
  | [] => return true
  | c :: rest => do
    if ← eval v r c then evalAll v r rest else return false

/-- Whether a record satisfies some condition of a list. -/
def evalAny (v : StoreView) (r : Record) : List CompiledNode → Reading Bool
  | [] => return false
  | c :: rest => do
    if ← eval v r c then return true else evalAny v r rest

end

end CompiledNode

namespace CompiledFilter

/-- Binds a filter to a record type. -/
def compile (f : Filter) (t : RecordType) (catalog : Catalog) :
    Except SchemaError CompiledFilter := do
  return ⟨← CompiledNode.ofFilter catalog t f, f⟩

/-- Whether a record satisfies a filter in a view. -/
def accepts (f : CompiledFilter) (v : StoreView) (r : Record) : Reading Bool := f.root.eval v r

/-- Whether a record satisfies every filter of a list. -/
def allAccept (v : StoreView) (r : Record) : List CompiledFilter → Reading Bool
  | [] => return true
  | f :: rest => do
    if ← f.accepts v r then allAccept v r rest else return false

/-- The records of a list that satisfy a filter. -/
def select (f : CompiledFilter) (v : StoreView) (records : List Record) : Reading (List Record) :=
  records.filterM (f.accepts v)

end CompiledFilter

end RecordLayer
