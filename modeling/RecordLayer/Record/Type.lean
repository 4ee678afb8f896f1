import RecordLayer.Record
import RecordLayer.Record.Error

/-!
# Record types

A record type names the fields of its records in order and picks one of them as the primary key.
The type itself keeps what registration checks: field names are distinct and the key is one of them.
-/

namespace RecordLayer

/-- The name of the first field that repeats the name of an earlier one. -/
def firstRepeated : List String → List String → Option String
  | _, [] => none
  | seen, name :: rest =>
    if name ∈ seen then some name else firstRepeated (name :: seen) rest

theorem not_mem_and_nodup_of_firstRepeated {seen names : List String}
    (h : firstRepeated seen names = none) : names.Nodup ∧ ∀ n ∈ names, n ∉ seen := by
  induction names generalizing seen with
  | nil => simp
  | cons n rest ih =>
    simp only [firstRepeated] at h
    split at h
    · simp at h
    · rename_i hn
      obtain ⟨hd, hs⟩ := ih h
      refine ⟨List.nodup_cons.2 ⟨fun hm => hs n hm (by simp), hd⟩, ?_⟩
      intro m hm
      rcases List.mem_cons.1 hm with rfl | hm
      · exact hn
      · exact fun hms => hs m hm (List.mem_cons_of_mem _ hms)

/-- A registered record type. -/
structure RecordType where
  name : String
  fields : List Field
  primaryKey : String
  names_nodup : (fields.map (·.name)).Nodup
  primaryKey_mem : primaryKey ∈ fields.map (·.name)

namespace RecordType

/-- The position of a field. -/
def position? (t : RecordType) (field : String) : Option Nat :=
  t.fields.findIdx? (·.name == field)

/-- The position of a field, or the error that names it. -/
def position (t : RecordType) (field : String) : Except SchemaError Nat :=
  match t.position? field with
  | some i => .ok i
  | none => .error (.unknownField t.name field)

/-- Whether the type declares a field. -/
def hasField (t : RecordType) (field : String) : Bool := t.fields.any (·.name == field)

/-- The position of the primary key. -/
def keyPosition (t : RecordType) : Nat := t.fields.findIdx (·.name == t.primaryKey)

/-- The primary key of a record. -/
def keyOf (t : RecordType) (r : Record) : Value := r.get t.keyPosition

/-- The value of a named field, the null for a field that the type does not have. -/
def valueOf (t : RecordType) (r : Record) (field : String) : Value :=
  match t.position? field with
  | some i => r.get i
  | none => .null

/-- Declares a record type. The primary key field becomes required. -/
def declare (name : String) (fields : List Field) (primaryKey : Option String) :
    Except SchemaError RecordType :=
  match primaryKey with
  | none => .error (.missingPrimaryKey name)
  | some key =>
    match h : firstRepeated [] (fields.map (·.name)) with
    | some repeated => .error (.duplicateField repeated)
    | none =>
      if hk : key ∈ fields.map (·.name) then
        let fields' := fields.map fun f => if f.name = key then { f with required := true } else f
        have hnames : fields'.map (·.name) = fields.map (·.name) := by
          simp only [fields', List.map_map]
          refine List.map_congr_left fun f _ => ?_
          simp only [Function.comp]
          split <;> rfl
        .ok { name, fields := fields', primaryKey := key,
              names_nodup := hnames ▸ (not_mem_and_nodup_of_firstRepeated h).1,
              primaryKey_mem := hnames ▸ hk }
      else .error (.unknownField name key)

/-- Why a value cannot stand in a field, if it cannot. -/
def fieldFault (field : Field) (value : Value) : Option SchemaError :=
  if value.isNull then
    if field.required then some (.missingField field.name) else none
  else if field.type.accepts value.kind then none
  else some (.typeMismatch field.name field.type.name value.kind.name)

/-- The first fault among fields and values paired by position. -/
def firstFault : List Field → List Value → Option SchemaError
  | f :: fs, v :: vs =>
    match fieldFault f v with
    | some e => some e
    | none => firstFault fs vs
  | _, _ => none

/-- Checks a record against the declared fields. -/
def validate (t : RecordType) (r : Record) : Except SchemaError Unit :=
  if r.values.length ≠ t.fields.length then
    .error (.arityMismatch t.name t.fields.length r.values.length)
  else
    match firstFault t.fields r.values with
    | some e => .error e
    | none => .ok ()

/-- Fills in named values from left to right; a later value for a field replaces an earlier one. -/
def fill (t : RecordType) : List Value → List (String × Value) → Except SchemaError (List Value)
  | values, [] => .ok values
  | values, (field, value) :: rest =>
    match t.position field with
    | .error e => .error e
    | .ok i => t.fill (values.set i value) rest

/-- Builds a checked record from named values; fields that are not named hold the null. -/
def record (t : RecordType) (pairs : List (String × Value)) : Except SchemaError Record := do
  let values ← t.fill (List.replicate t.fields.length .null) pairs
  t.validate ⟨values⟩
  return ⟨values⟩

end RecordType

end RecordLayer
