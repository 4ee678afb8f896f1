import RecordLayer.Document.Format
import RecordLayer.Proofs.Document.Numeral

/-!
# What is relied on in a format

A format is lawful if it reads its own texts: a document comes back from its text, and a machine
integer from its numeral. Doubles that are not finite have no numeral. Nothing is said about which
double the numeral of a finite one is read as, so a format may lose some of them
(`Document.Format.Keeps`).

The standard format is lawful.
-/

namespace RecordLayer.Document.Format

/-- The documents that a format has to write: strings have content, and numbers are machine integers
and doubles. -/
inductive Writes (format : Format) : Document → Prop
  | null : Writes format .null
  | bool (b : Bool) : Writes format (.bool b)
  | int {i : Int} : Int64.minValue.toInt ≤ i → i < UInt64.size →
      Writes format (.number (format.ofInt i))
  | double {d : Double} {n : Numeral} : format.ofDouble? d = some n → Writes format (.number n)
  | text (s : String) : Writes format (.text (some s))
  | array {items : List Document} : (∀ d ∈ items, Writes format d) → Writes format (.array items)
  | object {members : List (Content × Document)} :
      (∀ m ∈ members, ∃ name : String, m.1 = some name) → (∀ m ∈ members, Writes format m.2) →
      Writes format (.object members)

/-- The format reads its own texts, less some doubles. -/
structure Lawful (format : Format) : Prop where
  /-- A document is read back from its text. -/
  read_write : ∀ d, format.Writes d → format.read (format.write d) = some d
  /-- A machine integer is read back from its numeral. -/
  int?_ofInt : ∀ i, Int64.minValue.toInt ≤ i → i < UInt64.size →
    format.int? (format.ofInt i) = some i
  /-- Just the finite doubles have numerals. -/
  isSome_ofDouble? : ∀ d, (format.ofDouble? d).isSome = d.isFinite
  /-- Arrays and objects may be nested so deeply. -/
  nesting : 127 ≤ format.nesting

/-- The double is read back from its numeral. -/
def Keeps (format : Format) (d : Double) : Prop :=
  (format.ofDouble? d).bind format.double? = some d

instance (format : Format) (d : Double) : Decidable (format.Keeps d) :=
  inferInstanceAs (Decidable (_ = _))

/-- A double that is not finite has no numeral to be read back from. -/
theorem Lawful.isFinite_of_keeps {format : Format} (h : format.Lawful) {d : Double}
    (hd : format.Keeps d) : d.isFinite = true := by
  obtain ⟨n, hn, -⟩ := Option.bind_eq_some_iff.1 hd
  rw [← h.isSome_ofDouble?, hn, Option.isSome_some]

/-! ## The standard format -/

theorem legible_of_writes {d : Document} (h : standard.Writes d) : d.Legible := by
  induction h with
  | null => exact .null
  | bool b => exact .bool b
  | @int i _ _ => exact .number (Numeral.ofInt_proper i).legible
  | @double d n hn =>
    obtain ⟨-, rfl⟩ : d.isFinite = true ∧ Numeral.ofDouble d = n := by
      simpa [standard] using hn
    exact .number (Numeral.ofDouble_proper d).legible
  | text s => exact .text s
  | array _ ih => exact .array ih
  | object hnames _ ih => exact .object hnames ih

/-- **The standard format is lawful.** -/
theorem standard_lawful : standard.Lawful where
  read_write _ h := (legible_of_writes h).parse_render
  int?_ofInt i _ _ := Numeral.toInt?_ofInt i
  isSome_ofDouble? d := by cases h : d.isFinite <;> simp [standard, h]
  nesting := Nat.le_refl 127

end RecordLayer.Document.Format
