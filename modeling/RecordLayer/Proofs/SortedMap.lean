import RecordLayer.SortedMap

/-!
# Sorted maps hold what was put

A look-up sees exactly the last `put` or `drop` of its key. `put` needs nothing for that;
`drop` removes one pair only, so it relies on the keys being strictly ascending, which
both operations keep.
-/

namespace RecordLayer.SortedMap

variable {κ α : Type} [Ord κ]

/-- The keys are strictly ascending. -/
def Ascending (m : SortedMap κ α) : Prop := m.Pairwise fun a b => compare a.1 b.1 = .lt

/-! ## Look-ups -/

section Lookup

variable [Std.LawfulEqOrd κ] [DecidableEq κ]

theorem lookup?_cons (key k : κ) (a : α) (m : SortedMap κ α) :
    lookup? key ((k, a) :: m) = if key = k then some a else lookup? key m := by
  rw [lookup?]
  by_cases h : key = k
  · subst h
    simp
  · have hne : compare key k ≠ .eq := fun he => h (Std.LawfulEqOrd.eq_of_compare he)
    simp [h, hne]

/-- **A look-up after `put`** sees the value put for its own key, and every other key unchanged. -/
theorem lookup?_put (key key' : κ) (a : α) (m : SortedMap κ α) :
    lookup? key' (m.put key a) = if key' = key then some a else lookup? key' m := by
  induction m with
  | nil => simp [put, lookup?_cons, lookup?]
  | cons p rest ih =>
    obtain ⟨k, b⟩ := p
    unfold put
    split
    · rw [lookup?_cons]
    · rename_i he
      have hk : key = k := Std.LawfulEqOrd.eq_of_compare he
      subst hk
      rw [lookup?_cons, lookup?_cons]
      by_cases h : key' = key <;> simp [h]
    · rename_i hgt
      have hk : key ≠ k := by
        rintro rfl
        simp at hgt
      rw [lookup?_cons, ih, lookup?_cons]
      by_cases h : key' = k
      · subst h
        simp [Ne.symm hk]
      · simp [h]

theorem lookup?_put_self (key : κ) (a : α) (m : SortedMap κ α) :
    lookup? key (m.put key a) = some a := by
  simp [lookup?_put]

omit [DecidableEq κ] in
/-- The later of two values put for a key stands alone. -/
theorem put_put (key : κ) (a b : α) (m : SortedMap κ α) :
    (m.put key a).put key b = m.put key b := by
  induction m with
  | nil => simp [put]
  | cons p rest ih =>
    obtain ⟨k, old⟩ := p
    cases h : compare key k with
    | lt => simp [put, h]
    | eq => simp [put, h]
    | gt => simp [put, h, ih]

/-- Of values that are put for different keys, each one is found. -/
theorem lookup?_foldl_put {β : Type} {key : β → κ} (value : β → α) {l : List β}
    (hn : (l.map key).Nodup) {b : β} (hb : b ∈ l) : ∀ m : SortedMap κ α,
      lookup? (key b) (l.foldl (fun m b => m.put (key b) (value b)) m) = some (value b) := by
  have hother : ∀ {l : List β}, key b ∉ l.map key → ∀ m : SortedMap κ α,
      lookup? (key b) (l.foldl (fun m b => m.put (key b) (value b)) m) = lookup? (key b) m := by
    intro l hl
    induction l with
    | nil => exact fun _ => rfl
    | cons c rest ih =>
      intro m
      rw [List.map_cons, List.mem_cons, not_or] at hl
      rw [List.foldl_cons, ih hl.2, lookup?_put, if_neg hl.1]
  induction l with
  | nil => cases hb
  | cons c rest ih =>
    intro m
    rw [List.map_cons, List.nodup_cons] at hn
    rcases List.mem_cons.1 hb with rfl | hb
    · rw [List.foldl_cons, hother hn.1, lookup?_put_self]
    · exact ih hn.2 hb _

theorem mem_of_lookup? {key : κ} {a : α} {m : SortedMap κ α} (h : lookup? key m = some a) :
    (key, a) ∈ m := by
  induction m with
  | nil => simp [lookup?] at h
  | cons p rest ih =>
    obtain ⟨k, b⟩ := p
    rw [lookup?_cons] at h
    by_cases hk : key = k
    · subst hk
      simp only [if_true, Option.some.injEq] at h
      simp [h]
    · rw [if_neg hk] at h
      exact List.mem_cons_of_mem _ (ih h)

theorem lookup?_map {β : Type} (key : κ) (f : α → β) (m : SortedMap κ α) :
    lookup? key (m.map fun (k, a) => (k, f a)) = (lookup? key m).map f := by
  induction m with
  | nil => rfl
  | cons p rest ih =>
    obtain ⟨k, a⟩ := p
    simp only [List.map_cons, lookup?_cons, ih]
    split <;> rfl

theorem lookup?_eq_none_of_lt {key : κ} {m : SortedMap κ α}
    (h : ∀ p ∈ m, compare key p.1 = .lt) : lookup? key m = none := by
  cases hl : lookup? key m with
  | none => rfl
  | some a =>
    have := h _ (mem_of_lookup? hl)
    simp at this

end Lookup

/-! ## Ascending keys -/

theorem mem_put {key : κ} {a : α} {p : κ × α} {m : SortedMap κ α} (h : p ∈ m.put key a) :
    p = (key, a) ∨ p ∈ m := by
  induction m with
  | nil => simpa [put] using h
  | cons q rest ih =>
    obtain ⟨k, b⟩ := q
    unfold put at h
    split at h
    · simpa using h
    · rcases List.mem_cons.mp h with h | h
      · exact Or.inl h
      · exact Or.inr (List.mem_cons_of_mem _ h)
    · rcases List.mem_cons.mp h with h | h
      · exact Or.inr (h ▸ List.mem_cons_self)
      · rcases ih h with h | h
        · exact Or.inl h
        · exact Or.inr (List.mem_cons_of_mem _ h)

theorem mem_foldl_put {β : Type} {key : β → κ} {value : β → α} {p : κ × α} {l : List β} :
    ∀ {m : SortedMap κ α}, p ∈ l.foldl (fun m b => m.put (key b) (value b)) m →
      p ∈ m ∨ ∃ b ∈ l, p = (key b, value b) := by
  induction l with
  | nil => exact fun h => .inl h
  | cons c rest ih =>
    intro m h
    rcases ih h with h | ⟨b, hb, hp⟩
    · rcases mem_put h with rfl | h
      · exact .inr ⟨c, by simp, rfl⟩
      · exact .inl h
    · exact .inr ⟨b, List.mem_cons_of_mem _ hb, hp⟩

theorem drop_sublist (key : κ) (m : SortedMap κ α) : (SortedMap.drop key m).Sublist m := by
  induction m with
  | nil => exact List.Sublist.slnil
  | cons p rest ih =>
    obtain ⟨k, a⟩ := p
    unfold SortedMap.drop
    split
    · exact List.sublist_cons_self _ _
    · exact ih.cons_cons _

section Ascending

theorem ascending_put [Std.TransOrd κ] {m : SortedMap κ α} (h : Ascending m) (key : κ) (a : α) :
    Ascending (m.put key a) := by
  induction m with
  | nil => simp [put, Ascending]
  | cons p rest ih =>
    obtain ⟨k, b⟩ := p
    have hrest := List.pairwise_cons.mp h
    unfold put
    split
    · rename_i hlt
      refine List.pairwise_cons.mpr ⟨fun q hq => ?_, h⟩
      rcases List.mem_cons.mp hq with rfl | hq
      · exact hlt
      · exact Std.TransCmp.lt_trans hlt (hrest.1 q hq)
    · rename_i heq
      refine List.pairwise_cons.mpr ⟨fun q hq => ?_, hrest.2⟩
      exact Std.TransCmp.lt_of_eq_of_lt heq (hrest.1 q hq)
    · rename_i hgt
      refine List.pairwise_cons.mpr ⟨fun q hq => ?_, ih hrest.2⟩
      rcases mem_put hq with rfl | hq
      · exact Std.OrientedCmp.lt_of_gt hgt
      · exact hrest.1 q hq

theorem ascending_drop {m : SortedMap κ α} (h : Ascending m) (key : κ) :
    Ascending (SortedMap.drop key m) :=
  List.Pairwise.sublist (drop_sublist key m) h

variable [Std.LawfulEqOrd κ] [DecidableEq κ]

theorem lookup?_of_mem {key : κ} {a : α} {m : SortedMap κ α} (h : Ascending m)
    (hm : (key, a) ∈ m) : lookup? key m = some a := by
  induction m with
  | nil => simp at hm
  | cons p rest ih =>
    obtain ⟨k, b⟩ := p
    obtain ⟨hlt, hrest⟩ := List.pairwise_cons.mp h
    rw [lookup?_cons]
    rcases List.mem_cons.mp hm with he | hmem
    · obtain ⟨rfl, rfl⟩ := Prod.mk.inj he
      simp
    · have hk : key ≠ k := by
        rintro rfl
        simpa using hlt _ hmem
      rw [if_neg hk]
      exact ih hrest hmem

/-- A look-up after `drop` finds nothing for the dropped key, and every other key unchanged. -/
theorem lookup?_drop {m : SortedMap κ α} (h : Ascending m) (key key' : κ) :
    lookup? key' (SortedMap.drop key m) = if key' = key then none else lookup? key' m := by
  induction m with
  | nil => simp [SortedMap.drop, lookup?]
  | cons p rest ih =>
    obtain ⟨k, a⟩ := p
    obtain ⟨hlt, hrest⟩ := List.pairwise_cons.mp h
    unfold SortedMap.drop
    by_cases hk : key = k
    · subst hk
      simp only [Std.ReflCmp.compare_self, beq_self_eq_true, if_true]
      rw [lookup?_cons]
      by_cases h' : key' = key
      · subst h'
        -- the keys behind the dropped one are larger, so the key does not come again
        simp [lookup?_eq_none_of_lt hlt]
      · simp [h']
    · have hne : compare key k ≠ .eq := fun he => hk (Std.LawfulEqOrd.eq_of_compare he)
      simp only [beq_iff_eq, hne, if_false]
      rw [lookup?_cons, lookup?_cons, ih hrest]
      by_cases h' : key' = k
      · subst h'
        simp [Ne.symm hk]
      · simp [h']

/-! ## Pairs as a multiset -/

omit [DecidableEq κ] in
theorem perm_drop {key : κ} {a : α} {m : SortedMap κ α} (h : lookup? key m = some a) :
    m.Perm ((key, a) :: SortedMap.drop key m) := by
  induction m with
  | nil => cases h
  | cons p rest ih =>
    obtain ⟨k, b⟩ := p
    unfold SortedMap.drop
    unfold lookup? at h
    by_cases hk : (compare key k == .eq) = true
    · rw [if_pos hk] at h ⊢
      rw [Std.LawfulEqCmp.compare_beq_iff_eq.1 hk, Option.some.inj h]
    · rw [if_neg hk] at h ⊢
      exact ((ih h).cons _).trans (.swap _ _ _)

omit [Std.LawfulEqOrd κ] [DecidableEq κ] in
theorem perm_put {key : κ} {m : SortedMap κ α} (h : lookup? key m = none) (a : α) :
    (m.put key a).Perm ((key, a) :: m) := by
  induction m with
  | nil => exact .refl _
  | cons p rest ih =>
    obtain ⟨k, b⟩ := p
    unfold lookup? at h
    unfold put
    cases hk : compare key k with
    | lt => exact .refl _
    | eq => simp [hk] at h
    | gt => exact ((ih (by simpa [hk] using h)).cons _).trans (.swap _ _ _)

end Ascending

end RecordLayer.SortedMap
