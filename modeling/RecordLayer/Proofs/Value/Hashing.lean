import RecordLayer.Proofs.Value.Order
import RecordLayer.Value.Hashing

/-!
# Equal values are hashed alike

The order of values is linear, and two values that compare as equal are the same: they have the same
kind and the same bits. What their hashes are computed from says as much, since the kind can be read
off its first octets and the content off the others. So values that are equal are hashed alike, and
values that are hashed alike are equal.
-/

namespace RecordLayer.Value

/-! ## Octets -/

@[simp] theorem length_octets (count n : Nat) : (octets count n).length = count := by
  induction count generalizing n with
  | zero => rfl
  | succ count ih => rw [octets, List.length_cons, ih]

/-- Numbers that fit into some octets are told apart by them. -/
theorem octets_inj {count n m : Nat} (hn : n < Nat.pow 256 count) (hm : m < Nat.pow 256 count)
    (h : octets count n = octets count m) : n = m := by
  induction count generalizing n m with
  | zero =>
    change n < 1 at hn
    change m < 1 at hm
    omega
  | succ count ih =>
    obtain ⟨hlow, hhigh⟩ := List.cons.inj h
    have hlow : n % 256 = m % 256 := by simpa using congrArg UInt8.toNat hlow
    have hdiv : n / 256 = m / 256 := ih (Nat.div_lt_of_lt_mul (Nat.mul_comm _ _ ▸ hn))
      (Nat.div_lt_of_lt_mul (Nat.mul_comm _ _ ▸ hm)) hhigh
    omega

theorem octets_word_inj {x y : UInt64} (h : octets 8 x.toNat = octets 8 y.toNat) : x = y := by
  have hfits : ∀ z : UInt64, z.toNat < Nat.pow 256 8 := fun z => z.toNat_lt
  exact UInt64.toNat_inj.1 (octets_inj (hfits x) (hfits y) h)

/-! ## Content -/

theorem kind_inj {j k : Kind} (h : j.rank = k.rank) : j = k := by
  cases j <;> cases k <;> first | rfl | cases h

/-- Values of one kind are told apart by their bits. -/
theorem eq_of_payload {a b : Value} (hkind : a.kind = b.kind) (h : a.payload = b.payload) :
    a = b := by
  cases a with
  | null =>
    cases b with
    | null => rfl
    | bool | int | double | text => cases hkind
  | bool x =>
    cases b with
    | bool y => cases x <;> cases y <;> first | rfl | cases h
    | null | int | double | text => cases hkind
  | int x =>
    cases b with
    | int y => rw [← x.toInt64_toUInt64, octets_word_inj h, y.toInt64_toUInt64]
    | null | bool | double | text => cases hkind
  | double x =>
    cases b with
    | double y => exact congrArg (fun bits => double ⟨bits⟩) (octets_word_inj h)
    | null | bool | int | text => cases hkind
  | text x =>
    cases b with
    | text y =>
      -- the payload of a text is its bytes and an end mark
      have hbytes := Array.toList_inj.1 (List.append_cancel_right h)
      rw [String.toByteArray_inj.1 (ByteArray.ext hbytes)]
    | null | bool | int | double => cases hkind

theorem hashed_eq_iff {a b : Value} :
    a.hashed = b.hashed ↔ a.kind = b.kind ∧ a.payload = b.payload := by
  constructor
  · intro h
    -- the octets of the kinds are equally many, so the two parts can be told apart
    obtain ⟨hrank, hpayload⟩ := List.append_inj h (by simp)
    have hlt : ∀ k : Kind, k.rank < Nat.pow 256 8 := fun k => by cases k <;> decide
    exact ⟨kind_inj (octets_inj (hlt _) (hlt _) hrank), hpayload⟩
  · rintro ⟨hkind, hpayload⟩
    rw [hashed, hashed, hkind, hpayload]

theorem payload_eq_iff {a b : Value} : a.kind = b.kind ∧ a.payload = b.payload ↔ a = b :=
  ⟨fun ⟨hkind, h⟩ => eq_of_payload hkind h, fun h => h ▸ ⟨rfl, rfl⟩⟩

/-! ## The order -/

/-- **The order of values is linear, and it agrees with equality, with hashing and with negation.**
Values compare as equal exactly if they have the same kind and the same content bit by bit, which is
exactly if they are hashed alike; so doubles do exactly if all their bits agree. -/
theorem compare_linear (a b c : Value) :
    a.compare a = .eq ∧ b.compare a = (a.compare b).swap ∧
    (a.le b = true ∨ b.le a = true) ∧
    (a.le b = true → b.le a = true → a = b) ∧
    (a.le b = true → b.le c = true → a.le c = true) ∧
    (a.lt b = true → b.lt c = true → a.lt c = true) ∧
    (a.compare b = .eq ↔ a = b) ∧
    (a.compare b = .eq ↔ a.kind = b.kind ∧ a.payload = b.payload) ∧
    (a.compare b = .eq ↔ a.hashed = b.hashed) ∧
    (∀ x y : Double, (double x).compare (double y) = .eq ↔ x.bits = y.bits) ∧
    ∀ op : Comparator, op.test a b = !op.negate.test a b := by
  simp only [le_iff, lt_iff]
  refine ⟨compare_self a, compare_swap b a, le_total a b, le_antisymm, le_trans, lt_trans,
    compare_eq_iff, ?_, ?_, fun x y => ?_, fun op => ?_⟩
  · rw [compare_eq_iff, payload_eq_iff]
  · rw [compare_eq_iff, hashed_eq_iff, payload_eq_iff]
  · rw [compare_eq_iff, double.injEq]
    exact ⟨congrArg Double.bits, fun h => congrArg Double.mk h⟩
  · rw [Comparator.test_negate, Bool.not_not]

/-- The two zeros and a NaN ascend, and neither the zeros nor two different NaNs
are hashed alike. -/
theorem compare_linear_zeros :
    (double ⟨0x8000000000000000⟩).lt (double ⟨0x7ff8000000000000⟩) = true ∧
    (double ⟨0x8000000000000000⟩).le (double ⟨0x7ff8000000000000⟩) = true ∧
    double ⟨0⟩ = double ⟨0⟩ ∧
    (double ⟨0x8000000000000000⟩).hashed ≠ (double ⟨0⟩).hashed ∧
    (double ⟨0x7ff8000000000000⟩).hashed ≠ (double ⟨0x7ff8000000000001⟩).hashed := by
  obtain ⟨-, -, -, -, htrans, htrans', -, -, hhashed, -⟩ :=
    compare_linear (double ⟨0x8000000000000000⟩) (double ⟨0⟩) (double ⟨0x7ff8000000000000⟩)
  obtain ⟨-, -, -, hantisymm, -⟩ := compare_linear (double ⟨0⟩) (double ⟨0⟩) (double ⟨0⟩)
  obtain ⟨-, -, -, -, -, -, -, -, hhashed', -⟩ :=
    compare_linear (double ⟨0x7ff8000000000000⟩) (double ⟨0x7ff8000000000001⟩) null
  exact ⟨htrans' (by decide) (by decide), htrans (by decide) (by decide),
    hantisymm (by decide) (by decide), fun h => absurd (hhashed.2 h) (by decide),
    fun h => absurd (hhashed'.2 h) (by decide)⟩

end RecordLayer.Value
