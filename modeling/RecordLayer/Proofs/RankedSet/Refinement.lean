import RecordLayer.Proofs.RankedSet.Operations

/-!
# A ranked set is a sorted list

`Holds` says that a ranked set stands for an ascending list of values, whatever the heights of its
towers. Inserting puts a value behind those that do not exceed it, erasing takes away the first
value equal to the given one, and every answer is the one that the list gives: a rank is a count of
smaller values, and the value at a rank is the one at that position.
-/

namespace RecordLayer.RankedSet

variable {α : Type}

/-! ## Selection -/

/-- A search by position finds the element there. -/
theorem Represents.seekDown?_eq {s : RankedSet α} {passed rest : List (Tower α)} {e : Tower α}
    (h : Represents s (passed ++ e :: rest)) : ∀ (n : Nat) (place low : List (Tower α)),
      place ++ low = passed ++ [e] → n ≤ endHeight place → n ≤ levels → 0 < n →
      s.seekDown? (passed.length + 1) n (endSlot place, place.length) = some e.value
  | n + 1, place, low, hpl, hn, hlevels, _ => by
    have hlen : (passed ++ [e]).length = passed.length + 1 := by simp
    have hfuel : low.length ≤ s.nodes.size := by
      have hsize := h.size_nodes
      have := congrArg List.length hpl
      simp at this hsize
      omega
    have hseek := h.seek?_eq (show (passed ++ [e]) ++ rest = _ by simp) s.nodes.size
      place low hpl hn hfuel
    obtain ⟨low', hsplit, hlow, hreach⟩ := upTo_spec hlevels (passed ++ [e])
    rw [hlen] at hseek
    simp only [seekDown?, hseek, Option.bind_eq_bind, Option.bind_some]
    by_cases harrived : (upTo n (passed ++ [e])).length = passed.length + 1
    · have hall : upTo n (passed ++ [e]) = passed ++ [e] := by
        have hnil : low' = [] := by
          have := congrArg List.length hsplit
          simp at this
          exact List.eq_nil_of_length_eq_zero (by omega)
        rw [hnil, List.append_nil] at hsplit
        exact hsplit.symm
      rw [if_pos harrived, hall, endSlot_append_cons, endSlot_singleton]
      exact h.value?_tower rfl
    · -- on the lowest level every element is reached
      have hpos : 0 < n := by
        refine Nat.pos_of_ne_zero fun hzero => harrived ?_
        rw [hzero, upTo_zero, hlen]
        exact fun x hx => (h.height x (by
          rcases List.mem_append.1 hx with hx | hx
          · simp [hx]
          · simp [List.mem_singleton.1 hx])).1
      rw [if_neg harrived]
      exact h.seekDown?_eq n _ low' hsplit.symm (Nat.le_of_lt hreach) (Nat.le_of_succ_le hlevels)
        hpos

/-! ## Sorted lists -/

variable [Ord α]

/-- The ranked set stands for an ascending list of values. -/
def Holds (s : RankedSet α) (values : List α) : Prop :=
  ∃ towers, Represents s towers ∧ towers.map (·.value) = values ∧
    values.Pairwise fun a b => compare a b ≠ .gt

/-- The values that do not exceed a value, with it behind them, and the others. -/
def insertSorted (value : α) (values : List α) : List α :=
  values.takeWhile (compare · value != .gt) ++ value :: values.dropWhile (compare · value != .gt)

theorem insertSorted_perm (value : α) (values : List α) :
    (insertSorted value values).Perm (value :: values) := by
  rw [insertSorted]
  refine List.perm_middle.trans (.cons _ ?_)
  rw [List.takeWhile_append_dropWhile]

theorem holds_empty (heights : Heights) : Holds (.empty heights : RankedSet α) [] :=
  ⟨[], represents_empty heights, rfl, .nil⟩

section Split

variable {p : α → Bool}

omit [Ord α] in
theorem eq_true_of_mem_takeWhile {values : List α} {a : α} (ha : a ∈ values.takeWhile p) :
    p a = true :=
  List.all_eq_true.1 List.all_takeWhile a ha

/-- In an ascending list, a test that smaller values inherit holds of a first part only. -/
theorem eq_false_of_mem_dropWhile {values : List α}
    (hsorted : values.Pairwise fun a b => compare a b ≠ .gt)
    (hp : ∀ a b, compare a b ≠ .gt → p b = true → p a = true) {a : α}
    (ha : a ∈ values.dropWhile p) : p a = false := by
  induction values with
  | nil => simp at ha
  | cons v values ih =>
    obtain ⟨hv, hsorted⟩ := List.pairwise_cons.1 hsorted
    by_cases hpv : p v = true
    · rw [List.dropWhile_cons_of_pos hpv] at ha
      exact ih hsorted ha
    · rw [List.dropWhile_cons_of_neg hpv] at ha
      rcases List.mem_cons.1 ha with rfl | ha
      · simpa using hpv
      · cases hpa : p a with
        | false => rfl
        | true => exact absurd (hp v a (hv a ha) hpa) hpv

/-- Splits ascending towers where a test that smaller values inherit begins to fail. -/
theorem exists_split {towers : List (Tower α)}
    (hsorted : (towers.map (·.value)).Pairwise fun a b => compare a b ≠ .gt)
    (hp : ∀ a b, compare a b ≠ .gt → p b = true → p a = true) :
    ∃ passed rest, towers = passed ++ rest ∧ (∀ e ∈ passed, p e.value = true) ∧
      (∀ e ∈ rest, p e.value = false) ∧
      passed.map (·.value) = (towers.map (·.value)).takeWhile p ∧
      rest.map (·.value) = (towers.map (·.value)).dropWhile p := by
  refine ⟨towers.takeWhile fun e => p e.value, towers.dropWhile fun e => p e.value,
    List.takeWhile_append_dropWhile.symm, fun e he => ?_, fun e he => ?_, ?_, ?_⟩
  · exact eq_true_of_mem_takeWhile (p := fun e : Tower α => p e.value) he
  · refine eq_false_of_mem_dropWhile hsorted hp ?_
    rw [List.dropWhile_map]
    exact List.mem_map_of_mem he
  · rw [List.takeWhile_map]
    rfl
  · rw [List.dropWhile_map]
    rfl

omit [Ord α] in
/-- What none of the towers has is not found among their values. -/
theorem forall_map_value {towers : List (Tower α)} (h : ∀ e ∈ towers, p e.value = false) :
    ∀ v ∈ towers.map (·.value), ¬p v = true := by
  intro v hv
  obtain ⟨e, he, rfl⟩ := List.mem_map.1 hv
  simp [h e he]

variable [Std.TransOrd α]

/-- Being below a value is inherited by smaller values. -/
theorem compare_lt_of_le {a b value : α} (hab : compare a b ≠ .gt)
    (hb : (compare b value == .lt) = true) : (compare a value == .lt) = true := by
  have hb : compare b value = .lt := by simpa using hb
  have := Std.TransCmp.lt_of_isLE_of_lt (Ordering.ne_gt_iff_isLE.1 hab) hb
  simpa using this

/-- Not exceeding a value is inherited by smaller values. -/
theorem compare_le_of_le {a b value : α} (hab : compare a b ≠ .gt)
    (hb : (compare b value != .gt) = true) : (compare a value != .gt) = true := by
  have hb : compare b value ≠ .gt := by simpa using hb
  have := Std.TransCmp.isLE_trans (Ordering.ne_gt_iff_isLE.1 hab) (Ordering.ne_gt_iff_isLE.1 hb)
  simpa using Ordering.ne_gt_iff_isLE.2 this

/-- In an ascending list all values behind one that exceeds a given value exceed it too. -/
theorem forall_gt_of_head {a value : α} {values : List α}
    (hsorted : (a :: values).Pairwise fun a b => compare a b ≠ .gt) (ha : compare a value = .gt) :
    ∀ v ∈ a :: values, compare v value = .gt := by
  intro v hv
  rcases List.mem_cons.1 hv with rfl | hv
  · exact ha
  · refine Decidable.byContradiction fun hne => ?_
    have hav := (List.pairwise_cons.1 hsorted).1 v hv
    have hle : (compare a value != .gt) = true := compare_le_of_le hav (by simpa using hne)
    simp [ha] at hle

theorem insertSorted_sorted {values : List α}
    (h : values.Pairwise fun a b => compare a b ≠ .gt) (value : α) :
    (insertSorted value values).Pairwise fun a b => compare a b ≠ .gt := by
  have hback : ∀ b ∈ values.dropWhile (compare · value != .gt), compare value b ≠ .gt := by
    intro b hb
    have := eq_false_of_mem_dropWhile h (fun _ _ => compare_le_of_le) hb
    have : compare b value = .gt := by simpa using this
    simp [Std.OrientedCmp.lt_of_gt this]
  rw [insertSorted, List.pairwise_append]
  refine ⟨h.sublist (List.takeWhile_sublist _), List.pairwise_cons.2
    ⟨hback, h.sublist (List.dropWhile_sublist _)⟩, ?_⟩
  intro a ha b hb
  have ha : compare a value ≠ .gt := by simpa using eq_true_of_mem_takeWhile ha
  rcases List.mem_cons.1 hb with rfl | hb
  · exact ha
  · exact Ordering.ne_gt_iff_isLE.2 (Std.TransCmp.isLE_trans (Ordering.ne_gt_iff_isLE.1 ha)
      (Ordering.ne_gt_iff_isLE.1 (hback b hb)))

end Split

namespace Holds

variable [Std.TransOrd α] {s : RankedSet α} {values : List α}

omit [Std.TransOrd α] in
theorem sorted (h : Holds s values) : values.Pairwise fun a b => compare a b ≠ .gt :=
  let ⟨_, _, _, hsorted⟩ := h
  hsorted

omit [Std.TransOrd α] in
theorem size_eq (h : Holds s values) : s.size = values.length := by
  obtain ⟨towers, hs, rfl, -⟩ := h
  rw [hs.size, List.length_map]

omit [Std.TransOrd α] in
/-- The heights that were drawn are no part of what a set stands for. -/
theorem withDrawn (h : Holds s values) (drawn : Nat) : Holds { s with drawn } values :=
  let ⟨towers, hs, hvalues⟩ := h
  ⟨towers, ⟨hs.node, hs.height, hs.slots, hs.free_lt, hs.size_nodes, hs.size⟩, hvalues⟩

/-- **Inserting puts a value behind those that do not exceed it,** at whatever height. -/
theorem insertWith? (h : Holds s values) (value : α) {height : Nat} (hpos : 1 ≤ height)
    (hle : height ≤ levels) :
    ∃ s', s.insertWith? value height = some s' ∧ Holds s' (insertSorted value values) := by
  obtain ⟨towers, hs, rfl, hsorted⟩ := h
  obtain ⟨passed, rest, rfl, hle', hgt, hpassed, hrest⟩ :=
    exists_split (p := fun v => compare v value != .gt) hsorted fun _ _ => compare_le_of_le
  obtain ⟨s', slot, hinsert, hs'⟩ := hs.insertWith?_eq
    (fun e he => show compare e.value value ≠ .gt by simpa using hle' e he)
    (fun e he => by simpa using hgt e he) hpos hle
  refine ⟨s', hinsert, _, hs', ?_, insertSorted_sorted hsorted value⟩
  rw [List.map_append, List.map_cons, hpassed, hrest, insertSorted]

theorem insertWith (h : Holds s values) (value : α) {height : Nat} (hpos : 1 ≤ height)
    (hle : height ≤ levels) : Holds (s.insertWith value height) (insertSorted value values) := by
  obtain ⟨s', hinsert, hs'⟩ := h.insertWith? value hpos hle
  rw [RankedSet.insertWith, hinsert]
  exact hs'

theorem insert (h : Holds s values) (value : α) :
    Holds (s.insert value) (insertSorted value values) :=
  (h.withDrawn _).insertWith value (Nat.le_add_left 1 _) (s.heights s.drawn).isLt

/-- **Removing takes away the first value that is equal to the given one** and says
whether there was one. -/
theorem remove? (h : Holds s values) (value : α) :
    ∃ s', s.remove? value = some (values.any (compare · value == .eq), s') ∧
      Holds s' (values.eraseP (compare · value == .eq)) := by
  obtain ⟨towers, hs, rfl, hsorted⟩ := h
  obtain ⟨passed, rest, rfl, hpassed, hrest, -⟩ :=
    exists_split (p := fun v => compare v value == .lt) hsorted fun _ _ => compare_lt_of_le
  have hlt : ∀ e ∈ passed, compare e.value value = .lt := fun e he => by simpa using hpassed e he
  have hge : ∀ e ∈ rest, compare e.value value ≠ .lt := fun e he => by simpa using hrest e he
  have hskip : ∀ v ∈ passed.map (·.value), ¬(compare v value == .eq) = true :=
    forall_map_value (p := (compare · value == .eq)) fun e he => by simp [hlt e he]
  rw [List.map_append] at hsorted ⊢
  rw [List.any_append, List.any_eq_false.2 hskip, Bool.false_or, List.eraseP_append_right _ hskip]
  by_cases hfirst : ∃ e later, rest = e :: later ∧ compare e.value value = .eq
  · obtain ⟨e, later, rfl, he⟩ := hfirst
    obtain ⟨s', hremove, hs'⟩ := hs.remove?_eq_true hlt
      (fun x hx => hge x (List.mem_cons_of_mem _ hx)) he
    refine ⟨s', by simpa [he] using hremove, passed ++ later, hs', ?_, ?_⟩
    · simp [he]
    · refine hsorted.sublist (List.Sublist.append_left ?_ _)
      simp [he]
  · -- the first value that is not below the given one exceeds it, and so do all behind it
    have hgt : ∀ e ∈ rest, compare e.value value = .gt := by
      cases rest with
      | nil => simp
      | cons x later =>
        have hx : compare x.value value = .gt := by
          cases hc : compare x.value value with
          | lt => exact absurd hc (hge x (by simp))
          | eq => exact absurd ⟨x, later, rfl, hc⟩ hfirst
          | gt => rfl
        have hbehind := (List.pairwise_append.1 hsorted).2.1
        exact fun e he => forall_gt_of_head hbehind hx _ (List.mem_map_of_mem he)
    have hskip' : ∀ v ∈ rest.map (·.value), ¬(compare v value == .eq) = true :=
      forall_map_value (p := (compare · value == .eq)) fun e he => by simp [hgt e he]
    refine ⟨s, ?_, passed ++ rest, hs, ?_, ?_⟩
    · rw [List.any_eq_false.2 hskip']
      exact hs.remove?_eq_false hlt hgt
    · rw [List.map_append, List.eraseP_of_forall_not hskip']
    · rw [List.eraseP_of_forall_not hskip']
      exact hsorted

theorem erase (h : Holds s values) (value : α) :
    Holds (s.erase value) (values.eraseP (compare · value == .eq)) := by
  obtain ⟨s', hremove, hs'⟩ := h.remove? value
  rw [RankedSet.erase, hremove]
  exact hs'

omit [Std.TransOrd α] in
/-- A count of the elements that pass a test that smaller values inherit. -/
theorem countBefore_eq (h : Holds s values) {p : α → Bool}
    (hp : ∀ a b, compare a b ≠ .gt → p b = true → p a = true) :
    s.countBefore p = values.countP p := by
  obtain ⟨towers, hs, rfl, hsorted⟩ := h
  obtain ⟨passed, rest, rfl, htrue, hfalse, -⟩ := exists_split hsorted hp
  have hplaces : places passed levels = (endSlot passed, passed.length) ::
      (places passed levels).drop 1 := by
    have hzero : upTo 0 passed = passed :=
      upTo_zero fun e he => (hs.height e (by simp [he])).1
    have := drop_places passed (show 0 < levels from Nat.zero_lt_succ _)
    rwa [List.drop_zero, hzero] at this
  rw [countBefore, hs.predecessors?_eq rfl htrue hfalse, hplaces, List.map_append,
    List.countP_append]
  have hcount : (passed.map (·.value)).countP p = passed.length := by
    rw [List.countP_eq_length.2, List.length_map]
    intro v hv
    obtain ⟨e, he, rfl⟩ := List.mem_map.1 hv
    exact htrue e he
  have hcount' : (rest.map (·.value)).countP p = 0 :=
    List.countP_eq_zero.2 (forall_map_value hfalse)
  simp only [hcount, hcount', Nat.add_zero]

/-- **The rank of a value is the number of smaller ones.** -/
theorem rank_eq (h : Holds s values) (value : α) :
    s.rank value = values.countP (compare · value == .lt) :=
  h.countBefore_eq fun _ _ => compare_lt_of_le

/-- The inclusive rank of a value is the number of those that do not exceed it. -/
theorem rankInclusive_eq (h : Holds s values) (value : α) :
    s.rankInclusive value = values.countP (compare · value != .gt) :=
  h.countBefore_eq fun _ _ => compare_le_of_le

/-- A value occurs exactly if removing it finds one: both look at the first value not below it. -/
theorem contains_eq (h : Holds s values) (value : α) :
    s.contains value = values.any (compare · value == .eq) := by
  obtain ⟨s', hremove, -⟩ := h.remove? value
  generalize values.any (compare · value == .eq) = found at hremove ⊢
  rw [RankedSet.remove?] at hremove
  rw [contains, firstNotBelow?]
  obtain ⟨ends, hends, hremove⟩ := Option.bind_eq_some_iff.1 hremove
  obtain ⟨⟨prev, _⟩, hhead, hremove⟩ := Option.bind_eq_some_iff.1 hremove
  obtain ⟨link, hlink, hremove⟩ := Option.bind_eq_some_iff.1 hremove
  simp only [hends, hhead, hlink, Option.bind_eq_bind, Option.bind_some]
  cases htarget : link.target with
  | none =>
    simp only [htarget, Option.pure_def, Option.some.injEq, Prod.mk.injEq] at hremove
    simp [hremove.1]
  | some slot =>
    simp only [htarget] at hremove
    obtain ⟨v, hv, hremove⟩ := Option.bind_eq_some_iff.1 hremove
    simp only [Option.bind_some, hv]
    by_cases heq : compare v value = .eq
    · obtain ⟨nodes, -, hremove⟩ := Option.bind_eq_some_iff.1 (by simpa [heq] using hremove)
      obtain ⟨size, -, hremove⟩ := Option.bind_eq_some_iff.1 hremove
      simp only [Option.some.injEq, Prod.mk.injEq] at hremove
      simp [heq, ← hremove.1]
    · rw [if_pos (by simpa using heq)] at hremove
      simp only [Option.pure_def, Option.some.injEq, Prod.mk.injEq] at hremove
      simp [heq, ← hremove.1]

omit [Std.TransOrd α] in
/-- **The value at a rank is the one at that position.** -/
theorem select_eq (h : Holds s values) (rank : Nat) : s.select rank = values[rank]? := by
  obtain ⟨towers, hs, rfl, -⟩ := h
  rw [select]
  by_cases hlt : rank < towers.length
  · have hsplit : towers.take rank ++ towers[rank] :: towers.drop (rank + 1) = towers := by
      rw [← List.drop_eq_getElem_cons hlt, List.take_append_drop]
    have hlen : (towers.take rank).length = rank := by
      rw [List.length_take]
      omega
    rw [if_neg (by rw [hs.size]; omega)]
    have hseek := (hsplit.symm ▸ hs : Represents s (towers.take rank ++ towers[rank] ::
      towers.drop (rank + 1))).seekDown?_eq levels [] (towers.take rank ++ [towers[rank]]) rfl
      (Nat.le_refl _) (Nat.le_refl _) (Nat.zero_lt_succ _)
    rw [hlen] at hseek
    simpa [hlt] using hseek
  · rw [if_pos (by rw [hs.size]; omega), List.getElem?_eq_none (by simp; omega)]

end Holds

end RecordLayer.RankedSet
