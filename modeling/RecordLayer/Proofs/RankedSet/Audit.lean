import RecordLayer.Proofs.RankedSet.Refinement
import RecordLayer.RankedSet.Audit

/-!
# Well-formed sets pass the audit

An audit follows the lowest level to learn the position of every slot, and then follows each level
and compares every span with the positions that the link joins. On a well-formed arena the lowest
level runs through all towers in order, so the position of a place's slot is the length of the
place. A link leads from a place to a longer one, and its span is the difference of their lengths.
-/

namespace RecordLayer.RankedSet

variable {α : Type}

/-! ## The lowest level -/

namespace Represents

variable {s : RankedSet α} {towers : List (Tower α)}

/-- From a place on, the lowest level runs through all the towers behind it. -/
theorem slotsFrom_eq (h : Represents s towers) {rest : List (Tower α)} :
    ∀ (place : List (Tower α)) (fuel : Nat), place ++ rest = towers → rest.length ≤ fuel →
      s.slotsFrom fuel (endSlot place) = rest.map (·.slot) := by
  induction rest with
  | nil =>
    intro place fuel ht hfuel
    cases fuel with
    | zero => rfl
    | succ fuel =>
      rw [slotsFrom, h.link?_place ht (h.endHeight_pos ht)]
      rfl
  | cons e rest ih =>
    intro place fuel ht hfuel
    cases fuel with
    | zero => simp at hfuel
    | succ fuel =>
      have hheight := (h.height e (by simp [← ht])).1
      have hlater := ih (place ++ [e]) fuel (by simpa using ht) (Nat.le_of_succ_le_succ hfuel)
      rw [endSlot_append_cons, endSlot_singleton] at hlater
      rw [slotsFrom, h.link?_place ht (h.endHeight_pos ht), linkTo, if_pos (by omega),
        List.map_cons]
      simp only [hlater]

theorem slots_eq (h : Represents s towers) : s.slots = towers.map (·.slot) := by
  refine h.slotsFrom_eq [] _ rfl ?_
  have := h.size_nodes
  omega

/-- Every tower's value is found in its slot. -/
theorem filterMap_value? (h : Represents s towers) {part : List (Tower α)}
    (hpart : ∀ e ∈ part, e ∈ towers) :
    (part.map (·.slot)).filterMap s.value? = part.map (·.value) := by
  induction part with
  | nil => rfl
  | cons e part ih =>
    obtain ⟨place, rest, ht⟩ := List.append_of_mem (hpart e (by simp))
    have hvalue := h.value?_tower ht.symm
    rw [List.map_cons, List.filterMap_cons, hvalue, List.map_cons,
      ih fun x hx => hpart x (List.mem_cons_of_mem _ hx)]

/-- **The elements in order are the values of the towers.** -/
theorem toList_eq (h : Represents s towers) : s.toList = towers.map (·.value) := by
  rw [toList, h.slots_eq]
  exact h.filterMap_value? fun e he => he

/-- The position of a place's slot is the length of the place. -/
theorem idxOf?_endSlot (h : Represents s towers) {place rest : List (Tower α)}
    (ht : place ++ rest = towers) :
    (0 :: towers.map (·.slot)).idxOf? (endSlot place) = some place.length := by
  obtain ⟨hlt, hget⟩ := List.getElem?_eq_some_iff.1 (getElem?_endSlot ht)
  refine List.findIdx?_eq_some_iff_getElem.2 ⟨hlt, by simpa using hget, fun j hj hsame => ?_⟩
  -- the same slot at an earlier position would be there twice
  have htwice : (0 :: towers.map (·.slot))[j]? = (0 :: towers.map (·.slot))[place.length]? := by
    rw [List.getElem?_eq_getElem (Nat.lt_trans hj hlt), List.getElem?_eq_getElem hlt, hget]
    simpa using hsame
  exact Nat.ne_of_lt hj ((List.getElem?_inj (Nat.lt_trans hj hlt) h.nodup_slots).1 htwice)

/-! ## Levels -/

/-- From a place that reaches a level on, every link of the level spans the distance that it covers,
and the spans add up to the number of elements. -/
theorem auditLevel?_eq (h : Represents s towers) (level : Nat) :
    ∀ (fuel : Nat) (place rest : List (Tower α)), place ++ rest = towers →
      level < endHeight place → rest.length < fuel →
      s.auditLevel? (0 :: towers.map (·.slot)).idxOf? level fuel (endSlot place) place.length =
        some (.ok ())
  | fuel + 1, place, rest, ht, hl, hfuel => by
    have hsize : s.size = place.length + rest.length := by
      rw [h.size, ← ht, List.length_append]
    rw [auditLevel?, h.link?_place ht hl, h.idxOf?_endSlot ht]
    rcases low_or_first level rest with hlow | ⟨low, e, later, rfl, hlow, he⟩
    · -- nothing behind the place reaches the level: the link covers all the rest
      have hlink : linkTo level rest = ⟨none, rest.length⟩ := by
        have := linkTo_append_low hlow []
        simpa [linkTo] using this
      have hdistance : sub? s.size place.length = some rest.length := by
        rw [sub?_of_le (by omega), hsize, Nat.add_sub_cancel_left]
      simp only [hlink, hdistance, Option.bind_eq_bind, Option.bind_some]
      rw [if_neg (by simp), if_neg (by omega)]
      rfl
    · have ht' : (place ++ low ++ [e]) ++ later = towers := by simpa using ht
      have hreached : (0 :: towers.map (·.slot)).idxOf? e.slot =
          some (place.length + (low.length + 1)) := by
        have := h.idxOf?_endSlot ht'
        simpa [Nat.add_assoc] using this
      have hdistance : sub? (place.length + (low.length + 1)) place.length =
          some (low.length + 1) := by
        rw [sub?_of_le (by omega), Nat.add_sub_cancel_left]
      have hlater := h.auditLevel?_eq level fuel _ _ ht' (by simpa using he)
        (by simp at hfuel; omega)
      simp only [linkTo_append_reaching hlow he, hreached, hdistance, Option.bind_eq_bind,
        Option.bind_some]
      simpa [Nat.add_assoc] using hlater

theorem auditLevels?_eq (h : Represents s towers) {ls : List Nat} (hls : ∀ l ∈ ls, l < levels) :
    s.auditLevels? (0 :: towers.map (·.slot)).idxOf? ls = some (.ok ()) := by
  induction ls with
  | nil => rfl
  | cons l ls ih =>
    have hlevel := h.auditLevel?_eq l (s.nodes.size + 1) [] towers rfl
      (hls l (by simp)) (by have := h.size_nodes; omega)
    rw [auditLevels?, show s.auditLevel? _ l (s.nodes.size + 1) 0 0 = some (.ok ()) from hlevel]
    exact ih fun l hl => hls l (List.mem_cons_of_mem _ hl)

end Represents

/-! ## The whole set -/

variable [Ord α]

theorem firstDescent_eq_none {values : List α}
    (h : values.Pairwise fun a b => compare a b ≠ .gt) (position : Nat) :
    firstDescent position values = none := by
  induction values generalizing position with
  | nil => rfl
  | cons a rest ih =>
    cases rest with
    | nil => rfl
    | cons b rest =>
      obtain ⟨ha, hrest⟩ := List.pairwise_cons.1 h
      rw [firstDescent, if_neg (by simpa using ha b (by simp))]
      exact ih hrest _

namespace Holds

variable {s : RankedSet α} {values : List α}

theorem toList_eq (h : Holds s values) : s.toList = values := by
  obtain ⟨towers, hs, rfl, -⟩ := h
  exact hs.toList_eq

/-- **A set that stands for an ascending list passes the audit,** and the audit comes to an end. -/
theorem audit?_eq (h : Holds s values) : s.audit? = some (.ok ()) := by
  obtain ⟨towers, hs, rfl, hsorted⟩ := h
  have hlength : (towers.map (·.slot)).length = s.size := by rw [hs.size, List.length_map]
  rw [audit?, hs.toList_eq, firstDescent_eq_none hsorted, hs.slots_eq]
  simp only [hlength, ne_eq, not_true_eq_false, if_false]
  exact hs.auditLevels?_eq fun l hl => List.mem_range.1 hl

end Holds

end RecordLayer.RankedSet
