import RecordLayer.Document.Codec
import RecordLayer.Proofs.Document.Format

/-!
# Codecs read back what they write

One lemma for each way to put a document together: single values, names, lists, options and the
fields of a structure. A list survives just when each of its items does, so a single value that is
lost is the only way in which a list can be lost. All of it is true in any lawful format, and in
such a format only doubles can be lost.
-/

namespace RecordLayer

variable {format : Document.Format} {α β : Type}

/-- A value is read back as itself from a document that may be nested so deeply. -/
def Codec.Survives (c : Codec α) (limit : Nat) (a : α) : Prop :=
  c.decode limit (c.encode a) = some a

/-- What survives within the document survives in the text. -/
theorem Document.Format.Lawful.parse_render (hformat : format.Lawful) {c : Codec α} {a : α}
    (h : format.Writes (c.encode a)) :
    format.parse c (format.render c a) = c.decode format.nesting (c.encode a) := by
  rw [Format.parse, Format.render, hformat.read_write _ h, Option.bind_some]

namespace Codec

/-! ## Single values -/

theorem text_writes (s : String) : format.Writes (text.encode s) := .text s

theorem bool_writes (b : Bool) : format.Writes (bool.encode b) := .bool b

theorem minValue_le_natCast (n : Nat) : Int64.minValue.toInt ≤ (n : Int) :=
  Int.le_trans (by decide) (Int.natCast_nonneg n)

theorem nat_writes {n : Nat} (h : n < UInt64.size) : format.Writes ((nat format).encode n) :=
  .int (minValue_le_natCast n) (Int.ofNat_lt.2 h)

theorem uint64_writes (n : UInt64) : format.Writes ((uint64 format).encode n) :=
  nat_writes n.toNat_lt

theorem int64_writes (i : Int64) : format.Writes ((int64 format).encode i) :=
  .int i.minValue_le_toInt (Int.lt_of_le_of_lt i.toInt_le (by decide))

theorem double_writes (d : Double) : format.Writes ((double format).encode d) := by
  simp only [double]
  cases hn : format.ofDouble? d with
  | none => exact .null
  | some n => exact .double hn

theorem named_writes (name : α → String) (all : List α) (a : α) :
    format.Writes ((named name all).encode a) := .text (name a)

theorem text_survives (limit : Nat) (s : String) : text.Survives limit s := rfl

theorem bool_survives (limit : Nat) (b : Bool) : bool.Survives limit b := rfl

section Lawful

variable (hformat : format.Lawful)
include hformat

theorem uint64_decode_ofInt (limit : Nat) {n : Nat} (h : n < UInt64.size) :
    (uint64 format).decode limit (.number (format.ofInt n)) = some n.toUInt64 := by
  have hword : (0 : Int) ≤ n ∧ (n : Int) < UInt64.size := ⟨Int.natCast_nonneg n, Int.ofNat_lt.2 h⟩
  have hread := hformat.int?_ofInt n (minValue_le_natCast n) hword.2
  change ((format.int? (format.ofInt n)).bind fun i =>
    if 0 ≤ i ∧ i < UInt64.size then some i.toNat.toUInt64 else none) = _
  rw [hread, Option.bind_some, if_pos hword, Int.toNat_natCast]

theorem uint64_survives (limit : Nat) (n : UInt64) : (uint64 format).Survives limit n := by
  refine (uint64_decode_ofInt hformat limit n.toNat_lt).trans ?_
  rw [Nat.toUInt64_eq, UInt64.ofNat_toNat]

theorem nat_survives (limit : Nat) {n : Nat} (h : n < UInt64.size) :
    (nat format).Survives limit n := by
  refine (congrArg (Option.map UInt64.toNat) (uint64_decode_ofInt hformat limit h)).trans ?_
  rw [Option.map_some, Nat.toUInt64_eq, UInt64.toNat_ofNat_of_lt' h]

theorem int64_survives (limit : Nat) (i : Int64) : (int64 format).Survives limit i := by
  have hlow := i.minValue_le_toInt
  have hhigh := i.toInt_le
  have hread := hformat.int?_ofInt _ hlow (Int.lt_of_le_of_lt hhigh (by decide))
  simp only [Survives, int64, hread, Option.bind_eq_bind, Option.bind_some, hlow, hhigh, and_self,
    if_true, Int64.ofInt_toInt]

/-- A double that is not finite is written as the null, which is no double. -/
theorem double_decode_eq_none {d : Double} (h : d.isFinite = false) (limit : Nat) :
    (double format).decode limit ((double format).encode d) = none := by
  rw [← hformat.isSome_ofDouble?, Option.isSome_eq_false_iff, Option.isNone_iff_eq_none] at h
  simp only [double, h]

end Lawful

/-- Whether a double survives is up to the format. -/
theorem double_survives_iff {limit : Nat} {d : Double} :
    (double format).Survives limit d ↔ format.Keeps d := by
  simp only [Survives, double, Document.Format.Keeps]
  cases format.ofDouble? d <;> rfl

/-! ## Lists and options -/

theorem mapM_eq_self_iff {f : α → Option β} {g : β → α} {bs : List β} :
    (bs.map g).mapM f = some bs ↔ ∀ b ∈ bs, f (g b) = some b := by
  induction bs with
  | nil => simp
  | cons b bs ih =>
    rw [List.map_cons, List.mapM_cons, List.forall_mem_cons, ← ih]
    simp only [Option.bind_eq_bind, Option.pure_def, Option.bind_eq_some_iff, Option.some.injEq,
      List.cons.injEq]
    constructor
    · rintro ⟨b', hb, bs', hbs, rfl, rfl⟩
      exact ⟨hb, hbs⟩
    · rintro ⟨hb, hbs⟩
      exact ⟨b, hb, bs, hbs, rfl, rfl⟩

theorem mapM_eq_none_of_mem {f : α → Option β} {as : List α} {a : α} (ha : a ∈ as)
    (h : f a = none) :
    as.mapM f = none := by
  induction as with
  | nil => cases ha
  | cons b as ih =>
    rw [List.mapM_cons]
    rcases List.mem_cons.1 ha with rfl | ha
    · simp [h]
    · cases f b <;> simp [ih ha]

theorem list_writes {c : Codec α} {as : List α} (h : ∀ a ∈ as, format.Writes (c.encode a)) :
    format.Writes ((list c).encode as) := .array (List.forall_mem_map.2 h)

theorem list_survives_iff {c : Codec α} {limit : Nat} {as : List α} :
    (list c).Survives (limit + 1) as ↔ ∀ a ∈ as, c.Survives limit a := mapM_eq_self_iff

theorem option_writes {c : Codec α} {a : Option α} (h : ∀ x ∈ a, format.Writes (c.encode x)) :
    format.Writes ((option c).encode a) := by
  cases a with
  | none => exact .null
  | some x => exact h x rfl

theorem option_survives {c : Codec α} {limit : Nat} {a : Option α}
    (hnull : ∀ x ∈ a, c.encode x ≠ .null) (h : ∀ x ∈ a, c.Survives limit x) :
    (option c).Survives limit a := by
  cases a with
  | none => rfl
  | some x =>
    have hx : c.decode limit (c.encode x) = some x := h x rfl
    have hne := hnull x rfl
    simp only [Survives, option, hx, Option.map_some]

/-! ## Structures -/

theorem ofMembers_writes {members : List (String × Document)}
    (h : ∀ m ∈ members, format.Writes m.2) : format.Writes (.ofMembers members) := by
  refine .object ?_ ?_ <;> rw [List.forall_mem_map]
  · exact fun m _ => ⟨m.1, rfl⟩
  · exact h

theorem Fields.ofMembers_named {names : List String} : ∀ {members : List (String × Document)},
    (∀ n ∈ members.map Prod.fst, n ∈ names) → (members.map Prod.fst).Nodup →
      ofMembers names (members.map fun (name, d) => (some name, d)) = some members
  | [], _, _ => rfl
  | (name, d) :: rest, hnames, hnodup => by
    rw [List.map_cons, List.nodup_cons] at hnodup
    have hnew : rest.any (·.1 == name) = false := by
      rw [List.any_eq_false]
      intro m hm heq
      have hname : m.1 = name := by simpa using heq
      exact hnodup.1 (List.mem_map.2 ⟨m, hm, hname⟩)
    have hknown : names.contains name = true := by simpa using hnames name List.mem_cons_self
    rw [List.map_cons, ofMembers,
      ofMembers_named (fun n hn => hnames n (List.mem_cons_of_mem _ hn)) hnodup.2]
    simp only [Option.bind_eq_bind, Option.bind_some, hknown, hnew, Bool.not_true,
      Bool.false_eq_true, if_false, Option.pure_def]

/-- The fields of a structure are found as they were written. -/
theorem Fields.ofDocument_ofMembers {names : List String} {members : List (String × Document)}
    (hnames : ∀ n ∈ members.map Prod.fst, n ∈ names) (hnodup : (members.map Prod.fst).Nodup)
    (limit : Nat) :
    ofDocument names (limit + 1) (.ofMembers members) = some ⟨limit, members⟩ := by
  rw [Document.ofMembers, ofDocument, ofMembers_named hnames hnodup, Option.map_some]

end Codec

end RecordLayer
