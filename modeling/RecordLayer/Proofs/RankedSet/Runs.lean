import RecordLayer.Proofs.RankedSet.Audit

/-!
# Runs of changes

Whatever values are inserted and removed, and whatever the heights of the new towers are, a ranked
set answers as the sorted list of the values that are there. The values are kept in a bag, in the
order in which they came; sorting is stable, so equal values stay in that order.

A stable sort is known by two things: it ascends, and it keeps the values of every class of equal
ones in their order. Both are easy to follow through an insertion and a removal, so the list that a
set stands for and the sorted bag change in step.
-/

namespace RecordLayer.RankedSet

variable {α : Type}

/-! ## Classes of equal values -/

section Classes

variable {p q : α → Bool}

/-- Erasing the first value of a class takes the first one of the class away. -/
theorem filter_eraseP_self (values : List α) :
    (values.eraseP p).filter p = (values.filter p).tail := by
  induction values with
  | nil => rfl
  | cons v values ih =>
    by_cases hv : p v = true
    · rw [List.eraseP_cons_of_pos hv, List.filter_cons_of_pos hv, List.tail_cons]
    · rw [List.eraseP_cons_of_neg hv, List.filter_cons_of_neg hv, List.filter_cons_of_neg hv, ih]

/-- Erasing a value of one class leaves the others as they are. -/
theorem filter_eraseP_of_disjoint (h : ∀ v, p v = true → q v = false) (values : List α) :
    (values.eraseP p).filter q = values.filter q := by
  induction values with
  | nil => rfl
  | cons v values ih =>
    by_cases hv : p v = true
    · rw [List.eraseP_cons_of_pos hv, List.filter_cons_of_neg (by simp [h v hv])]
    · rw [List.eraseP_cons_of_neg hv, List.filter_cons, List.filter_cons, ih]

end Classes

variable [Ord α]

/-- The values that equal a given one, in their order. -/
def alike (v : α) (values : List α) : List α := values.filter (compare · v == .eq)

section Alike

variable [Std.TransOrd α]

theorem alike_congr {v w : α} (h : compare v w = .eq) : alike (α := α) v = alike w := by
  funext values
  refine List.filter_congr fun a _ => ?_
  rw [Std.TransCmp.congr_right h]

theorem alike_cons_self (v : α) (values : List α) : alike v (v :: values) = v :: alike v values :=
  List.filter_cons_of_pos (by simp)

omit [Std.TransOrd α] in
theorem alike_append (v : α) (as bs : List α) : alike v (as ++ bs) = alike v as ++ alike v bs :=
  List.filter_append ..

/-- **An ascending list is known by its classes of equal values.** -/
theorem eq_of_alike {as bs : List α} (has : as.Pairwise fun a b => compare a b ≠ .gt)
    (hbs : bs.Pairwise fun a b => compare a b ≠ .gt) (h : ∀ v, alike v as = alike v bs) :
    as = bs := by
  induction as generalizing bs with
  | nil =>
    cases bs with
    | nil => rfl
    | cons b bs =>
      have := h b
      rw [alike_cons_self] at this
      simp [alike] at this
  | cons a as ih =>
    cases bs with
    | nil =>
      have := h a
      rw [alike_cons_self] at this
      simp [alike] at this
    | cons b bs =>
      obtain ⟨ha, has⟩ := List.pairwise_cons.1 has
      have hb := (List.pairwise_cons.1 hbs).1
      have hmem : a ∈ b :: bs := by
        have : a ∈ alike a (b :: bs) := by rw [← h a, alike_cons_self]; simp
        exact (List.mem_filter.1 this).1
      have hmem' : b ∈ a :: as := by
        have : b ∈ alike b (a :: as) := by rw [h b, alike_cons_self]; simp
        exact (List.mem_filter.1 this).1
      -- each head is the least value of both lists, so the heads are equal and first in one class
      have hle : (compare b a).isLE := by
        rcases List.mem_cons.1 hmem with rfl | hmem
        · simp
        · exact Ordering.ne_gt_iff_isLE.1 (hb a hmem)
      have hge : (compare a b).isLE := by
        rcases List.mem_cons.1 hmem' with rfl | hmem'
        · simp
        · exact Ordering.ne_gt_iff_isLE.1 (ha b hmem')
      have heq : compare a b = .eq := Std.OrientedCmp.isLE_antisymm hge hle
      have hheads := h a
      rw [alike_cons_self, alike_congr heq, alike_cons_self] at hheads
      obtain rfl : a = b := (List.cons.inj hheads).1
      refine congrArg (a :: ·) (ih has (List.pairwise_cons.1 hbs).2 fun v => ?_)
      have hv := h v
      rw [alike, alike, List.filter_cons, List.filter_cons] at hv
      by_cases hav : (compare a v == .eq) = true
      · rw [if_pos hav, if_pos hav] at hv
        exact (List.cons.inj hv).2
      · rw [if_neg hav, if_neg hav] at hv
        exact hv

end Alike

/-! ## The sorted bag -/

/-- The values of a bag in ascending order, equal ones as they came. -/
def inOrder (bag : List α) : List α := bag.mergeSort fun a b => compare a b != .gt

theorem inOrder_perm (bag : List α) : (inOrder bag).Perm bag := List.mergeSort_perm ..

section Sorted

variable [Std.TransOrd α]

theorem not_gt_trans (a b c : α) (hab : (compare a b != .gt) = true)
    (hbc : (compare b c != .gt) = true) : (compare a c != .gt) = true :=
  compare_le_of_le (by simpa using hab) hbc

theorem not_gt_total (a b : α) : ((compare a b != .gt) || (compare b a != .gt)) = true := by
  have hswap : compare b a = (compare a b).swap := Std.OrientedCmp.eq_swap
  rw [hswap]
  cases compare a b <;> rfl

theorem inOrder_ascending (bag : List α) :
    (inOrder bag).Pairwise fun a b => compare a b ≠ .gt :=
  (List.pairwise_mergeSort not_gt_trans not_gt_total bag).imp fun h => by simpa using h

/-- Sorting keeps equal values in their order. -/
theorem alike_inOrder (v : α) (bag : List α) : alike v (inOrder bag) = alike v bag := by
  have hascending : (alike v bag).Pairwise fun a b => (compare a b != .gt) = true := by
    refine List.pairwise_of_forall_mem_list fun a ha b hb => ?_
    have ha : compare a v = .eq := by simpa using (List.mem_filter.1 ha).2
    have hb : compare b v = .eq := by simpa using (List.mem_filter.1 hb).2
    simp [Std.TransCmp.eq_trans ha (Std.OrientedCmp.eq_symm hb)]
  -- a class of equal values ascends as it came, and a stable sort keeps what ascends
  have hsub : (alike v bag).Sublist (inOrder bag) :=
    List.sublist_mergeSort not_gt_trans not_gt_total hascending List.filter_sublist
  have hsub' : (alike v bag).Sublist (alike v (inOrder bag)) := by
    have := hsub.filter (compare · v == .eq)
    simpa only [alike, List.filter_filter, Bool.and_self] using this
  exact (hsub'.eq_of_length (((inOrder_perm bag).filter _).length_eq).symm).symm

theorem inOrder_insert (bag : List α) (value : α) :
    inOrder (bag ++ [value]) = insertSorted value (inOrder bag) := by
  refine eq_of_alike (inOrder_ascending _) (insertSorted_sorted (inOrder_ascending bag) value)
    fun v => ?_
  have hsplit := List.takeWhile_append_dropWhile (p := (compare · value != .gt)) (l := inOrder bag)
  have hbag : alike v bag = alike v (List.takeWhile (compare · value != .gt) (inOrder bag)) ++
      alike v (List.dropWhile (compare · value != .gt) (inOrder bag)) := by
    rw [← alike_inOrder, alike, alike, alike, ← List.filter_append, hsplit]
  rw [alike_inOrder, insertSorted, alike_append, alike_append, hbag, List.append_assoc]
  congr 1
  by_cases hv : compare value v = .eq
  · -- what stands behind the value exceeds it, so none of it is of the class
    have hback : alike v (List.dropWhile (compare · value != .gt) (inOrder bag)) = [] := by
      refine List.filter_eq_nil_iff.2 fun w hw => ?_
      have hgt := eq_false_of_mem_dropWhile (inOrder_ascending bag) (fun _ _ => compare_le_of_le) hw
      rw [← Std.TransCmp.congr_right hv]
      have hgt : compare w value = .gt := by simpa using hgt
      simp [hgt]
    have hself : ∀ values, alike v (value :: values) = value :: alike v values := fun values =>
      List.filter_cons_of_pos (by simpa using hv)
    rw [hself, hself, hback]
    rfl
  · have hother : ∀ values, alike v (value :: values) = alike v values := fun values =>
      List.filter_cons_of_neg (by simpa using hv)
    rw [hother, hother]
    exact List.append_nil _

/-- **Erasing from a bag erases from its sorted list.** -/
theorem inOrder_eraseP (bag : List α) (value : α) :
    inOrder (bag.eraseP (compare · value == .eq)) =
      (inOrder bag).eraseP (compare · value == .eq) := by
  refine eq_of_alike (inOrder_ascending _) ((inOrder_ascending bag).sublist List.eraseP_sublist)
    fun v => ?_
  rw [alike_inOrder]
  by_cases hv : compare value v = .eq
  · rw [← alike_congr hv, alike, alike, filter_eraseP_self, filter_eraseP_self, ← alike, ← alike,
      alike_inOrder]
  · have hdisjoint : ∀ w, (compare w value == .eq) = true → (compare w v == .eq) = false := by
      intro w hw
      have hw : compare w value = .eq := by simpa using hw
      rw [Std.TransCmp.congr_left hw]
      simpa using hv
    rw [alike, alike, filter_eraseP_of_disjoint hdisjoint, filter_eraseP_of_disjoint hdisjoint,
      ← alike, ← alike, alike_inOrder]

end Sorted

/-! ## Runs -/

/-- A change of a set. -/
inductive Change (α : Type) where
  | insert (value : α)
  | remove (value : α)

/-- A run of changes: what each removal answered, and the set in the end. The stream gives the
height of each new tower. There is no outcome if the arena does not allow a step. -/
def changeAll? (s : RankedSet α) (heights : Nat → Nat) :
    List (Change α) → Option (List Bool × RankedSet α)
  | [] => some ([], s)
  | .insert value :: changes => do
    let s ← s.insertWith? value (heights 0)
    s.changeAll? (fun i => heights (i + 1)) changes
  | .remove value :: changes => do
    let (found, s) ← s.remove? value
    let (answers, s) ← s.changeAll? heights changes
    return (found :: answers, s)

/-- The values that are there after a run, in the order in which they came. -/
def bagAfter (bag : List α) : List (Change α) → List α
  | [] => bag
  | .insert value :: changes => bagAfter (bag ++ [value]) changes
  | .remove value :: changes => bagAfter (bag.eraseP (compare · value == .eq)) changes

/-- Whether the value of each removal of a run is there at the time. -/
def findings (bag : List α) : List (Change α) → List Bool
  | [] => []
  | .insert value :: changes => findings (bag ++ [value]) changes
  | .remove value :: changes =>
    bag.any (compare · value == .eq) :: findings (bag.eraseP (compare · value == .eq)) changes

/-- What a set answers is what the sorted list of a bag of values gives. -/
structure Tallies (s : RankedSet α) (bag : List α) : Prop where
  toList : s.toList = inOrder bag
  size : s.size = bag.length
  contains : ∀ value, s.contains value = bag.any (compare · value == .eq)
  rank : ∀ value, s.rank value = bag.countP (compare · value == .lt)
  rankInclusive : ∀ value, s.rankInclusive value = bag.countP (compare · value != .gt)
  select : ∀ rank, s.select rank = (inOrder bag)[rank]?
  /-- The audit comes to an end and finds no fault. -/
  audit : s.audit? = some (.ok ())

section Runs

variable [Std.TransOrd α] {s : RankedSet α} {bag : List α}

theorem Holds.tallies (h : Holds s (inOrder bag)) : s.Tallies bag where
  toList := h.toList_eq
  size := by rw [h.size_eq, (inOrder_perm bag).length_eq]
  contains value := by rw [h.contains_eq, (inOrder_perm bag).any_eq]
  rank value := by rw [h.rank_eq, (inOrder_perm bag).countP_eq]
  rankInclusive value := by rw [h.rankInclusive_eq, (inOrder_perm bag).countP_eq]
  select := h.select_eq
  audit := h.audit?_eq

/-- A run keeps a set in step with the sorted bag. -/
theorem Holds.changeAll?_eq (h : Holds s (inOrder bag)) {heights : Nat → Nat}
    (hheights : ∀ i, 1 ≤ heights i ∧ heights i ≤ levels) (changes : List (Change α)) :
    ∃ s', s.changeAll? heights changes = some (findings bag changes, s') ∧
      Holds s' (inOrder (bagAfter bag changes)) := by
  induction changes generalizing s bag heights with
  | nil => exact ⟨s, rfl, h⟩
  | cons change changes ih =>
    cases change with
    | insert value =>
      obtain ⟨s₁, hinsert, hs₁⟩ := h.insertWith? value (hheights 0).1 (hheights 0).2
      rw [← inOrder_insert] at hs₁
      obtain ⟨s', hrun, hs'⟩ := ih hs₁ fun i => hheights (i + 1)
      refine ⟨s', ?_, hs'⟩
      rw [changeAll?, hinsert]
      exact hrun
    | remove value =>
      obtain ⟨s₁, hremove, hs₁⟩ := h.remove? value
      rw [← inOrder_eraseP] at hs₁
      obtain ⟨s', hrun, hs'⟩ := ih hs₁ hheights
      refine ⟨s', ?_, hs'⟩
      rw [changeAll?, hremove, (inOrder_perm bag).any_eq]
      simp only [Option.bind_eq_bind, Option.bind_some, hrun]
      rfl

/-- **A ranked set is a sorted multiset, whatever the heights of its towers.** Every run of changes
from the empty set comes to an end, each removal answers whether its value was there, and afterwards
every answer is the one that the sorted list of the values gives. -/
theorem tallies_of_run (source : Heights) (heights : Nat → Nat)
    (hheights : ∀ i, 1 ≤ heights i ∧ heights i ≤ levels) (changes : List (Change α)) :
    ∃ s, (empty source : RankedSet α).changeAll? heights changes = some (findings [] changes, s) ∧
      s.Tallies (bagAfter [] changes) := by
  have hempty : Holds (empty source : RankedSet α) (inOrder []) := by
    rw [inOrder, List.mergeSort_nil]
    exact holds_empty source
  obtain ⟨s, hrun, hs⟩ := hempty.changeAll?_eq hheights changes
  exact ⟨s, hrun, hs.tallies⟩

/-- Two equal values, one of which is removed, and a removal that finds nothing, with the heights
that the set itself would draw. -/
theorem tallies_of_run_drawn : ∃ s, (empty .ruler : RankedSet Int).changeAll?
    (fun i => Heights.ruler i + 1)
    [.insert 5, .insert 3, .insert 5, .remove 5, .insert (-4), .remove 9] =
      some ([true, false], s) ∧ s.Tallies [3, 5, -4] :=
  tallies_of_run .ruler _ (fun i => ⟨Nat.le_add_left 1 _, (Heights.ruler i).isLt⟩)
    [.insert 5, .insert 3, .insert 5, .remove 5, .insert (-4), .remove 9]

end Runs

end RecordLayer.RankedSet
