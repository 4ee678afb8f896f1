import RecordLayer.Index
import RecordLayer.Record.Type

/-!
# Catalog

The registered record types and indexes. Both are kept in ascending order of their names, which is
the order in which plans consider them.
-/

namespace RecordLayer

/-- Inserts an element before the first one whose name is larger. -/
def insertByName {α : Type} (name : α → String) (a : α) : List α → List α
  | [] => [a]
  | b :: rest => if name a < name b then a :: b :: rest else b :: insertByName name a rest

/-- Registered record types and indexes, each in ascending order of names. -/
structure Catalog where
  recordTypes : List RecordType
  indexes : List Index

namespace Catalog

/-- A catalog with nothing registered. -/
def empty : Catalog := ⟨[], []⟩

/-- The record type of a name. -/
def recordType? (c : Catalog) (name : String) : Option RecordType :=
  c.recordTypes.find? (·.name == name)

/-- The index of a name. -/
def index? (c : Catalog) (name : String) : Option Index := c.indexes.find? (·.name == name)

/-- The indexes on a record type, by name. -/
def indexesOf (c : Catalog) (recordType : String) : List Index :=
  c.indexes.filter (·.recordType == recordType)

/-- The indexes on a record type that lead with a field, by name. -/
def indexesLeading (c : Catalog) (recordType field : String) : List Index :=
  (c.indexesOf recordType).filter (·.leadingField? == some field)

/-- The indexes on a record type that plans may scan, by name. -/
def plannableIndexes (c : Catalog) (recordType : String) : List Index :=
  (c.indexesOf recordType).filter (·.isPlannable)

/-- The rank index that answers ranks of a field. -/
def rankIndex? (c : Catalog) (recordType field : String) : Option Index :=
  (c.indexesLeading recordType field).find? (·.isRank)

/-- Registers a record type. -/
def registerType (c : Catalog) (t : RecordType) : Except SchemaError Catalog :=
  if (c.recordType? t.name).isSome then .error (.duplicateRecordType t.name)
  else .ok { c with recordTypes := insertByName (·.name) t c.recordTypes }

/-- The first field of a list that the type lacks. -/
def unknownField? (t : RecordType) (fields : List String) : Option String :=
  fields.find? fun f => !t.hasField f

/-- Registers an index whose record type and fields are registered already. -/
def registerIndex (c : Catalog) (i : Index) : Except SchemaError Catalog :=
  if (c.index? i.name).isSome then .error (.duplicateIndex i.name)
  else
    match c.recordType? i.recordType with
    | none => .error (.unknownRecordType i.recordType)
    | some t =>
      if i.keyFields.isEmpty then .error (.invalidIndex i.name .noKeyFields)
      else if i.isRank ∧ i.keyFields.length ≠ 1 then
        .error (.invalidIndex i.name .rankKeyNotSingle)
      else
        match unknownField? t (i.keyFields ++ i.coveringFields) with
        | some f => .error (.unknownField t.name f)
        | none => .ok { c with indexes := insertByName (·.name) i c.indexes }

end Catalog

end RecordLayer
