import RecordLayer.Text.Order

/-!
# Sorted texts

Sorting texts forgets the order in which they came and nothing else; leaving out repetitions forgets
nothing about which texts there are.
-/

namespace RecordLayer.Text

theorem sort_perm (texts : List String) : (sort texts).Perm texts := List.mergeSort_perm _ _

theorem le_iff {a b : String} : le a b = true ↔ a ≤ b := by
  rw [le, Bool.not_eq_true', decide_eq_false_iff_not]
  exact String.not_lt

theorem le_trans {a b c : String} (hab : le a b = true) (hbc : le b c = true) : le a c = true :=
  le_iff.2 (String.le_trans (le_iff.1 hab) (le_iff.1 hbc))

theorem le_total (a b : String) : (le a b || le b a) = true := by
  rw [Bool.or_eq_true, le_iff, le_iff]
  exact String.le_total a b

/-- The texts do not descend. -/
theorem sort_sorted (texts : List String) : (sort texts).Pairwise (· ≤ ·) := by
  refine (List.pairwise_mergeSort (fun a b c hab hbc => ?_) le_total texts).imp le_iff.1
  exact le_trans hab hbc

theorem sort_eq_of_perm {as bs : List String} (h : as.Perm bs) : sort as = sort bs :=
  List.Perm.eq_of_pairwise (fun _ _ _ _ => String.le_antisymm) (sort_sorted as) (sort_sorted bs)
    ((sort_perm as).trans (h.trans (sort_perm bs).symm))

theorem perm_of_sort_eq {as bs : List String} (h : sort as = sort bs) : as.Perm bs :=
  (sort_perm as).symm.trans (h ▸ sort_perm bs)

theorem mem_dedupAdjacent {a : String} : ∀ {texts : List String},
    a ∈ dedupAdjacent texts ↔ a ∈ texts
  | [] => Iff.rfl
  | [b] => Iff.rfl
  | b :: c :: rest => by
    rw [dedupAdjacent]
    split
    · rename_i heq
      rw [mem_dedupAdjacent, heq]
      simp
    · rw [List.mem_cons, mem_dedupAdjacent, List.mem_cons (l := c :: rest)]

theorem mem_sortDistinct {a : String} {texts : List String} :
    a ∈ sortDistinct texts ↔ a ∈ texts := by
  rw [sortDistinct, mem_dedupAdjacent, sort, List.mem_mergeSort]

theorem dedupAdjacent_ascending : ∀ {texts : List String}, texts.Pairwise (· ≤ ·) →
    (dedupAdjacent texts).Pairwise (· < ·)
  | [], _ => .nil
  | [a], _ => List.pairwise_singleton _ _
  | a :: b :: rest, h => by
    obtain ⟨hhead, htail⟩ := List.pairwise_cons.1 h
    rw [dedupAdjacent]
    split
    · exact dedupAdjacent_ascending htail
    · rename_i hne
      refine List.pairwise_cons.2 ⟨fun c hc => ?_, dedupAdjacent_ascending htail⟩
      -- what does not come after the first of the others is not the head, nor in front of it
      refine String.not_le.1 fun hca => hne (String.le_antisymm (hhead b (by simp)) ?_)
      rcases List.mem_cons.1 (mem_dedupAdjacent.1 hc) with rfl | hc
      · exact hca
      · exact String.le_trans ((List.pairwise_cons.1 htail).1 c hc) hca

/-- Lists with the same texts have the same distinct texts. -/
theorem sortDistinct_eq {as bs : List String} (h : ∀ a, a ∈ as ↔ a ∈ bs) :
    sortDistinct as = sortDistinct bs := by
  have hascending : ∀ texts : List String, (sortDistinct texts).Pairwise (· < ·) := fun texts =>
    dedupAdjacent_ascending (sort_sorted texts)
  have hnodup : ∀ texts : List String, (sortDistinct texts).Nodup := by
    intro texts
    refine (hascending texts).imp ?_
    intro a b hab heq
    rw [heq] at hab
    exact String.lt_irrefl b hab
  refine List.Perm.eq_of_pairwise (fun a b _ _ hab hba => ?_) (hascending as) (hascending bs)
    ((List.perm_ext_iff_of_nodup (hnodup as) (hnodup bs)).2 fun a => ?_)
  · exact absurd (String.lt_trans hab hba) (String.lt_irrefl a)
  · rw [mem_sortDistinct, mem_sortDistinct, h]

end RecordLayer.Text
