import RecordLayer.Filter
import RecordLayer.Store.Table

/-!
# The order of values is linear

Values are ordered by kind and then by content, doubles by the total order of their bits. The
order is reflexive, transitive and total, and two values compare as equal only if they are the
same; the same holds of lists of values and of the keys of index entries, which are compared
from left to right.

* A double is determined by its place in the order, because the sign and the magnitude determine the
  bits.
* `Value.compareLists` is the order of lists that comes with the order of the elements.
* An entry key is ordered as the pair of its key and its primary key.
-/

namespace RecordLayer

/-! ## Doubles -/

namespace Double

theorem eq_of_orderKey {a b : Double} (h : a.orderKey = b.orderKey) : a = b := by
  obtain ⟨a⟩ := a
  obtain ⟨b⟩ := b
  have ha := a.toNat_lt
  have hb := b.toNat_lt
  simp only [orderKey, isNegative, magnitude, signBit] at h
  have hbits : a.toNat = b.toNat := by
    by_cases hna : 9223372036854775808 ≤ a.toNat <;>
      by_cases hnb : 9223372036854775808 ≤ b.toNat <;>
      simp only [hna, hnb, decide_true, decide_false, if_true, Bool.false_eq_true,
        if_false] at h <;>
      omega
  rw [UInt64.toNat_inj.1 hbits]

instance : Std.TransOrd Double where
  eq_swap := Std.OrientedOrd.eq_swap (α := Int)
  isLE_trans := Std.TransOrd.isLE_trans (α := Int)

instance : Std.LawfulEqOrd Double where
  compare_self := Std.ReflOrd.compare_self (α := Int)
  eq_of_compare h := eq_of_orderKey (Std.LawfulEqOrd.eq_of_compare (α := Int) h)

end Double

/-! ## Values -/

namespace Value

theorem compare_def (a b : Value) : Ord.compare a b = a.compare b := rfl

/-- The kind and the content of a value, with a fixed content for every other kind. -/
def parts : Value → Nat × Bool × Int64 × Double × String
  | null => (0, false, 0, ⟨0⟩, "")
  | bool b => (1, b, 0, ⟨0⟩, "")
  | int i => (2, false, i, ⟨0⟩, "")
  | double d => (3, false, 0, d, "")
  | text s => (4, false, 0, ⟨0⟩, s)

/-- The order of parts, from left to right. -/
abbrev compareParts : Nat × Bool × Int64 × Double × String → Nat × Bool × Int64 × Double × String →
    Ordering :=
  compareLex (compareOn (·.1)) (compareLex (compareOn (·.2.1)) (compareLex (compareOn (·.2.2.1))
    (compareLex (compareOn (·.2.2.2.1)) (compareOn (·.2.2.2.2)))))

theorem compare_eq_parts (a b : Value) : a.compare b = compareParts a.parts b.parts := by
  cases a <;> cases b <;>
    simp [Value.compare, parts, kind, Kind.rank, compareLex, compareOn, Ordering.then_eq] <;> rfl

theorem eq_of_parts {a b : Value} (h : a.parts = b.parts) : a = b := by
  cases a <;> cases b <;> simp_all [parts]

instance : Std.TransOrd Value where
  eq_swap {a b} := by
    rw [compare_def, compare_def, compare_eq_parts, compare_eq_parts]
    exact Std.OrientedCmp.eq_swap
  isLE_trans {a b c} hab hbc := by
    rw [compare_def, compare_eq_parts] at *
    exact Std.TransCmp.isLE_trans hab hbc

instance : Std.LawfulEqOrd Value where
  eq_of_compare {a b} h := by
    rw [compare_def, compare_eq_parts] at h
    simp only [compareParts, compareLex, compareOn, Ordering.then_eq_eq,
      Std.LawfulEqOrd.compare_eq_iff_eq] at h
    obtain ⟨h₁, h₂, h₃, h₄, h₅⟩ := h
    exact eq_of_parts (Prod.ext h₁ (Prod.ext h₂ (Prod.ext h₃ (Prod.ext h₄ h₅))))

/-- **Two values compare as equal exactly if they are the same.** -/
theorem compare_eq_iff {a b : Value} : a.compare b = .eq ↔ a = b :=
  Std.LawfulEqOrd.compare_eq_iff_eq (α := Value)

theorem compare_swap (a b : Value) : a.compare b = (b.compare a).swap :=
  Std.OrientedOrd.eq_swap (α := Value)

@[simp] theorem compare_self (a : Value) : a.compare a = .eq := compare_eq_iff.2 rfl

theorem lt_iff {a b : Value} : a.lt b = true ↔ a.compare b = .lt := by simp [lt]

theorem le_iff {a b : Value} : a.le b = true ↔ a.compare b ≠ .gt := by simp [le]

/-! ## Lists of values -/

/-- The order of lists that comes with the order of the elements. -/
theorem compareLists_eq (as bs : List Value) : compareLists as bs = Ord.compare as bs := by
  induction as generalizing bs with
  | nil => cases bs <;> rfl
  | cons a as ih =>
    cases bs with
    | nil => rfl
    | cons b bs => rw [compareLists, ih, List.compare_cons_cons, compare_def]

theorem compareLists_eq_iff {as bs : List Value} : compareLists as bs = .eq ↔ as = bs := by
  rw [compareLists_eq]
  exact Std.LawfulEqOrd.compare_eq_iff_eq

@[simp] theorem compareLists_self (as : List Value) : compareLists as as = .eq :=
  compareLists_eq_iff.2 rfl

theorem compareLists_swap (as bs : List Value) :
    compareLists as bs = (compareLists bs as).swap := by
  rw [compareLists_eq, compareLists_eq]
  exact Std.OrientedOrd.eq_swap

theorem compareLists_trans {as bs cs : List Value} (hab : compareLists as bs ≠ .gt)
    (hbc : compareLists bs cs ≠ .gt) : compareLists as cs ≠ .gt := by
  rw [compareLists_eq] at *
  exact Ordering.ne_gt_iff_isLE.2 (Std.TransCmp.isLE_trans (Ordering.ne_gt_iff_isLE.1 hab)
    (Ordering.ne_gt_iff_isLE.1 hbc))

theorem compareLists_lt_of_lt_of_le {as bs cs : List Value} (hab : compareLists as bs = .lt)
    (hbc : compareLists bs cs ≠ .gt) : compareLists as cs = .lt := by
  rw [compareLists_eq] at *
  exact Std.TransCmp.lt_of_lt_of_isLE hab (Ordering.ne_gt_iff_isLE.1 hbc)

/-- The null is the least value. -/
theorem compare_null_ne_lt (a : Value) : a.compare null ≠ .lt := by
  cases a <;> simp [Value.compare, kind, Kind.rank] <;> decide

/-- An equal first part does not count. -/
@[simp] theorem compareLists_append_left (as bs cs : List Value) :
    compareLists (as ++ bs) (as ++ cs) = compareLists bs cs := by
  induction as with
  | nil => rfl
  | cons a as ih => rw [List.cons_append, List.cons_append, compareLists, compare_self, ih]; rfl

/-- First parts of one length are compared before what follows. -/
theorem compareLists_append {as bs : List Value} (h : as.length = bs.length) (cs ds : List Value) :
    compareLists (as ++ cs) (bs ++ ds) = (compareLists as bs).then (compareLists cs ds) := by
  induction as generalizing bs with
  | nil =>
    obtain rfl := List.eq_nil_of_length_eq_zero h.symm
    rfl
  | cons a as ih =>
    cases bs with
    | nil => simp at h
    | cons b bs =>
      rw [List.cons_append, List.cons_append, compareLists, compareLists,
        ih (by simpa using h), Ordering.then_assoc]

/-- A list comes before its extensions. -/
theorem compareLists_append_ne_gt (as bs : List Value) : compareLists as (as ++ bs) ≠ .gt := by
  rw [← List.append_nil as, List.append_assoc, compareLists_append_left]
  cases bs <;> simp [compareLists]

/-- A list that is past another one without extending it is past all its extensions. -/
theorem compareLists_append_eq_lt {as bs : List Value} (h : compareLists as bs ≠ .gt)
    (hbegins : ¬as <+: bs) (cs : List Value) : compareLists (as ++ cs) bs = .lt := by
  induction as generalizing bs with
  | nil => exact absurd List.nil_prefix hbegins
  | cons a as ih =>
    cases bs with
    | nil => exact absurd rfl h
    | cons b bs =>
      rw [List.cons_append, compareLists]
      rw [compareLists] at h
      cases hc : a.compare b with
      | lt => rfl
      | gt => rw [hc] at h; exact absurd rfl h
      | eq =>
        rw [hc] at h
        obtain rfl := compare_eq_iff.1 hc
        exact ih h fun hp => hbegins ((List.prefix_cons_inj a).2 hp)

/-! ### Distinct values -/

theorem le_trans {a b c : Value} (hab : a.compare b ≠ .gt) (hbc : b.compare c ≠ .gt) :
    a.compare c ≠ .gt := by
  simp only [← compare_def, Ordering.ne_gt_iff_isLE] at hab hbc ⊢
  exact Std.TransCmp.isLE_trans hab hbc

theorem lt_of_lt_of_le {a b c : Value} (hab : a.compare b = .lt) (hbc : b.compare c ≠ .gt) :
    a.compare c = .lt := by
  simp only [← compare_def] at hab hbc ⊢
  exact Std.TransCmp.lt_of_lt_of_isLE hab (Ordering.ne_gt_iff_isLE.1 hbc)

theorem lt_of_le_of_lt {a b c : Value} (hab : a.compare b ≠ .gt) (hbc : b.compare c = .lt) :
    a.compare c = .lt := by
  simp only [← compare_def] at hab hbc ⊢
  exact Std.TransCmp.lt_of_isLE_of_lt (Ordering.ne_gt_iff_isLE.1 hab) hbc

theorem lt_trans {a b c : Value} (hab : a.compare b = .lt) (hbc : b.compare c = .lt) :
    a.compare c = .lt :=
  lt_of_lt_of_le hab (by simp [hbc])

theorem le_total (a b : Value) : a.compare b ≠ .gt ∨ b.compare a ≠ .gt := by
  rw [compare_swap b]
  cases a.compare b <;> simp

theorem le_antisymm {a b : Value} (hab : a.compare b ≠ .gt) (hba : b.compare a ≠ .gt) : a = b := by
  cases hc : a.compare b with
  | lt =>
    rw [compare_swap, hc] at hba
    exact absurd rfl hba
  | eq => exact compare_eq_iff.1 hc
  | gt => exact absurd hc hab

theorem sort_sorted (vs : List Value) : (sort vs).Pairwise fun a b => a.compare b ≠ .gt := by
  refine (List.pairwise_mergeSort (fun a b c hab hbc => ?_) (fun a b => ?_) vs).imp
    le_iff.1
  · exact le_iff.2 (le_trans (le_iff.1 hab) (le_iff.1 hbc))
  · rw [Bool.or_eq_true, le_iff, le_iff]
    exact le_total a b

/-- Sorting gives the only arrangement of the values that does not descend. -/
theorem eq_sort {values sorted : List Value} (hperm : sorted.Perm values)
    (hsorted : sorted.Pairwise fun a b => a.compare b ≠ .gt) : sorted = sort values := by
  exact List.Perm.eq_of_pairwise (fun _ _ _ _ => le_antisymm) hsorted (sort_sorted values)
    (hperm.trans (List.mergeSort_perm values le).symm)

theorem mem_dedupAdjacent {v : Value} : ∀ {vs : List Value}, v ∈ dedupAdjacent vs ↔ v ∈ vs
  | [] => Iff.rfl
  | [b] => Iff.rfl
  | b :: c :: rest => by
    rw [dedupAdjacent]
    split
    · rename_i heq
      rw [mem_dedupAdjacent, heq]
      simp
    · rw [List.mem_cons, mem_dedupAdjacent, List.mem_cons (l := c :: rest)]

theorem mem_sortDistinct {v : Value} {vs : List Value} : v ∈ sortDistinct vs ↔ v ∈ vs := by
  rw [sortDistinct, mem_dedupAdjacent, sort, List.mem_mergeSort]

theorem dedupAdjacent_ascending : ∀ {vs : List Value},
    vs.Pairwise (fun a b => a.compare b ≠ .gt) →
    (dedupAdjacent vs).Pairwise fun a b => a.compare b = .lt
  | [], _ => .nil
  | [a], _ => List.pairwise_singleton _ _
  | a :: b :: rest, h => by
    obtain ⟨hhead, htail⟩ := List.pairwise_cons.1 h
    rw [dedupAdjacent]
    split
    · exact dedupAdjacent_ascending htail
    · rename_i hne
      refine List.pairwise_cons.2 ⟨fun c hc => ?_, dedupAdjacent_ascending htail⟩
      have hab : a.compare b = .lt := by
        cases hcmp : a.compare b with
        | lt => rfl
        | eq => exact absurd (compare_eq_iff.1 hcmp) hne
        | gt => exact absurd hcmp (hhead b (by simp))
      rcases List.mem_cons.1 (mem_dedupAdjacent.1 hc) with rfl | hc
      · exact hab
      · exact lt_of_lt_of_le hab ((List.pairwise_cons.1 htail).1 c hc)

/-- The distinct values ascend. -/
theorem sortDistinct_ascending (vs : List Value) :
    (sortDistinct vs).Pairwise fun a b => a.compare b = .lt :=
  dedupAdjacent_ascending (sort_sorted vs)

/-- Values that ascend are left as they are. -/
theorem sortDistinct_of_ascending {vs : List Value}
    (h : vs.Pairwise fun a b => a.compare b = .lt) : sortDistinct vs = vs := by
  have hsort : sort vs = vs := (eq_sort (.refl vs) (h.imp fun hab => by simp [hab])).symm
  rw [sortDistinct, hsort]
  induction vs with
  | nil => rfl
  | cons a rest ih =>
    obtain ⟨hhead, htail⟩ := List.pairwise_cons.1 h
    cases rest with
    | nil => rfl
    | cons b rest =>
      have hne : a ≠ b := by
        rintro rfl
        simpa using hhead a (by simp)
      rw [dedupAdjacent, if_neg hne, ih htail]
      exact (eq_sort (.refl _) (htail.imp fun hab => by simp [hab])).symm

/-- Lists with the same values have the same distinct values. -/
theorem sortDistinct_eq {vs ws : List Value} (h : ∀ v, v ∈ vs ↔ v ∈ ws) :
    sortDistinct vs = sortDistinct ws := by
  have hnodup : ∀ us : List Value, (sortDistinct us).Nodup := fun us =>
    (sortDistinct_ascending us).imp fun hab heq => by
      rw [heq, compare_self] at hab
      cases hab
  refine List.Perm.eq_of_pairwise (fun a b _ _ hab hba => ?_) (sortDistinct_ascending vs)
    (sortDistinct_ascending ws) ((List.perm_ext_iff_of_nodup (hnodup vs) (hnodup ws)).2 fun v => ?_)
  · rw [compare_swap, hba] at hab
    cases hab
  · rw [mem_sortDistinct, mem_sortDistinct, h]

end Value

/-! ## Entry keys -/

namespace EntryKey

theorem compare_def (a b : EntryKey) : Ord.compare a b = a.compare b := rfl

instance : Std.OrientedOrd EntryKey where
  eq_swap {a b} := by
    show a.compare b = (b.compare a).swap
    unfold EntryKey.compare
    rw [Value.compareLists_swap, Value.compare_swap, Ordering.swap_then]

/-- An entry key is ordered as the pair of its key and its primary key. -/
theorem compare_eq_lex (a b : EntryKey) :
    a.compare b = compareLex (compareOn Prod.fst) (compareOn Prod.snd) (a.key, a.primaryKey)
      (b.key, b.primaryKey) := by
  unfold EntryKey.compare
  rw [Value.compareLists_eq]
  rfl

instance : Std.TransOrd EntryKey where
  isLE_trans {a b c} hab hbc := by
    rw [compare_def, compare_eq_lex] at *
    exact Std.TransCmp.isLE_trans hab hbc

instance : Std.LawfulEqOrd EntryKey where
  eq_of_compare {a b} h := by
    obtain ⟨hkey, hpk⟩ := Ordering.then_eq_eq.1 h
    cases a
    cases b
    have hkey := Value.compareLists_eq_iff.1 hkey
    have hpk := Value.compare_eq_iff.1 hpk
    simp_all

theorem compare_self (a : EntryKey) : a.compare a = .eq := by
  rw [← compare_def]
  exact Std.ReflOrd.compare_self

theorem compare_swap (a b : EntryKey) : a.compare b = (b.compare a).swap := by
  rw [← compare_def, ← compare_def]
  exact Std.OrientedOrd.eq_swap

theorem lt_trans {a b c : EntryKey} (hab : a.compare b = .lt) (hbc : b.compare c = .lt) :
    a.compare c = .lt := by
  rw [← compare_def] at hab hbc ⊢
  exact Std.TransCmp.lt_trans hab hbc

end EntryKey

/-! ## Comparators -/

namespace Comparator

theorem accepts_negate (op : Comparator) (o : Ordering) : op.negate.accepts o = !op.accepts o := by
  cases op <;> cases o <;> rfl

/-- **A comparator accepts exactly what its negation refuses.** -/
theorem test_negate (op : Comparator) (a b : Value) : op.negate.test a b = !op.test a b :=
  accepts_negate op _

theorem testRank_negate (op : Comparator) (a b : UInt64) :
    op.negate.testRank a b = !op.testRank a b :=
  accepts_negate op _

end Comparator

end RecordLayer
