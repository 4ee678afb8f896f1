import RecordLayer.Proofs.RowOrder

/-!
# Valid records

A valid record has a value for each field of its type: the null, unless the field is required, or a
value of the kind that the field stores.

Every field can hold at least two values, whatever its type is. So for any choice of fields there is
a valid record that holds the larger one in these fields and the smaller one in the others, and two
such records compare by a field as the choices do.
-/

namespace RecordLayer

/-! ## What a valid record holds -/

namespace RecordType

variable {t : RecordType} {r : Record} {field : String}

theorem exists_position? (h : t.hasField field = true) : ∃ n, t.position? field = some n :=
  Option.isSome_iff_exists.1 (by rw [position?, List.findIdx?_isSome]; exact h)

theorem validate_eq_ok_iff : t.validate r = .ok () ↔
    r.values.length = t.fields.length ∧ firstFault t.fields r.values = none := by
  unfold validate
  split
  · rename_i hlength
    simp [hlength]
  · rename_i hlength
    cases firstFault t.fields r.values <;> simp [Classical.not_not.1 hlength]

theorem fieldFault_eq_none_iff {f : Field} {v : Value} : fieldFault f v = none ↔
    (v.isNull = true → f.required = false) ∧ (v.isNull = false → v.kind = f.type.kind) := by
  unfold fieldFault
  cases v.isNull <;> cases f.required <;> simp [FieldType.accepts, eq_comm]

theorem firstFault_eq_none_iff {fields : List Field} : ∀ {values : List Value},
    firstFault fields values = none ↔ ∀ p ∈ fields.zip values, fieldFault p.1 p.2 = none := by
  induction fields with
  | nil => simp [firstFault]
  | cons f fs ih =>
    intro values
    cases values with
    | nil => simp [firstFault]
    | cons v vs =>
      rw [firstFault, List.zip_cons_cons, List.forall_mem_cons, ← ih]
      cases fieldFault f v <;> simp

/-- Records that are valid have a value at the position of every field. -/
theorem getElem?_of_position? (h : t.validate r = .ok ()) {n : Nat}
    (hn : t.position? field = some n) : r.values[n]? = some (t.valueOf r field) := by
  obtain ⟨hlt, -⟩ := List.findIdx?_eq_some_iff_getElem.1 hn
  rw [← (validate_eq_ok_iff.1 h).1] at hlt
  rw [valueOf, hn, List.getElem?_eq_getElem hlt]
  simp [Record.get, List.getD_eq_getElem?_getD, hlt]

/-- The value of a field is of the kind that the field stores, unless it is the null. -/
theorem kind_valueOf (h : t.validate r = .ok ()) {f : Field}
    (hf : (t.fields.find? (·.name == field)) = some f)
    (hnull : (t.valueOf r field).isNull = false) : (t.valueOf r field).kind = f.type.kind := by
  rw [List.find?_eq_bind_findIdx?_getElem?] at hf
  obtain ⟨n, hn, hfn⟩ := Option.bind_eq_some_iff.1 hf
  have hvn := getElem?_of_position? h hn
  refine (fieldFault_eq_none_iff.1 (firstFault_eq_none_iff.1 (validate_eq_ok_iff.1 h).2
    (f, t.valueOf r field) ?_)).2 hnull
  exact List.mem_of_getElem? (List.getElem?_zip_eq_some.2 ⟨hfn, hvn⟩)

end RecordType

/-! ## Records made to order -/

/-- The smaller or the larger one of two values of a type. -/
def FieldType.sample : FieldType → Bool → Value
  | .text, high => .text (if high then "a" else "")
  | .int, high => .int (if high then 1 else 0)
  | .bool, high => .bool high
  | .float, high => .double ⟨if high then 1 else 0⟩

theorem FieldType.compare_sample (type : FieldType) :
    (type.sample false).compare (type.sample true) = .lt := by
  cases type <;> decide

theorem FieldType.accepts_sample (type : FieldType) (high : Bool) :
    (type.sample high).isNull = false ∧ type.accepts (type.sample high).kind = true := by
  cases type <;> exact ⟨rfl, rfl⟩

namespace RecordType

variable {t : RecordType} {high high' : String → Bool} {field : String}

/-- The record that holds the larger value in the chosen fields. -/
def sample (t : RecordType) (high : String → Bool) : Record :=
  ⟨t.fields.map fun f => f.type.sample (high f.name)⟩

theorem validate_sample (t : RecordType) (high : String → Bool) :
    t.validate (t.sample high) = .ok () := by
  refine validate_eq_ok_iff.2 ⟨List.length_map _, firstFault_eq_none_iff.2 fun p hp => ?_⟩
  rw [sample, ← List.map_prod_left_eq_zip, List.mem_map] at hp
  obtain ⟨f, -, rfl⟩ := hp
  obtain ⟨hnull, haccepts⟩ := f.type.accepts_sample (high f.name)
  exact fieldFault_eq_none_iff.2 ⟨by simp [hnull], fun _ => (of_decide_eq_true haccepts).symm⟩

theorem valueOf_sample (h : t.hasField field = true) :
    ∃ type : FieldType, ∀ high, t.valueOf (t.sample high) field = type.sample (high field) := by
  obtain ⟨n, hn⟩ := exists_position? h
  obtain ⟨hlt, hname, -⟩ := List.findIdx?_eq_some_iff_getElem.1 hn
  have hname : t.fields[n].name = field := by simpa using hname
  refine ⟨t.fields[n].type, fun high => ?_⟩
  rw [valueOf, hn]
  simp [sample, Record.get, List.getD_eq_getElem?_getD, hlt, hname]

/-- Samples that choose alike hold the same value. -/
theorem valueOf_sample_eq (h : high field = high' field) :
    t.valueOf (t.sample high) field = t.valueOf (t.sample high') field := by
  cases hf : t.hasField field with
  | true =>
    obtain ⟨type, hvalue⟩ := valueOf_sample hf
    rw [hvalue, hvalue, h]
  | false =>
    have hnone : t.position? field = none := List.findIdx?_eq_none_iff.2 fun f hmem => by
      simpa using List.any_eq_false.1 hf f hmem
    rw [valueOf, valueOf, hnone]

theorem compare_valueOf_sample (h : t.hasField field = true) (hlow : high field = false)
    (hhigh : high' field = true) :
    (t.valueOf (t.sample high) field).compare (t.valueOf (t.sample high') field) = .lt := by
  obtain ⟨type, hvalue⟩ := valueOf_sample h
  rw [hvalue, hvalue, hlow, hhigh]
  exact type.compare_sample

end RecordType

end RecordLayer
