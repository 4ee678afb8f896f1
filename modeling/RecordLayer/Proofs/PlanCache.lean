import RecordLayer.PlanCache

/-!
# What a plan cache holds

A cache gives a plan for a canonical text only if that plan was put in for this text. Whatever is
known of every text and its plan when they are put in is therefore known of every hit, however full
the cache is and whichever texts share a fingerprint.
-/

namespace RecordLayer.PlanCache

variable {P : String → Plan → Prop} {c : PlanCache}

/-- The property holds of every remembered text and its plan. -/
def Holds (P : String → Plan → Prop) (c : PlanCache) : Prop :=
  ∀ e ∈ c.entries, P e.canonical e.plan

theorem holds_ofCapacity (P : String → Plan → Prop) (capacity : Nat) :
    Holds P (.ofCapacity capacity) := by
  intro e he
  cases he

theorem Holds.clear (c : PlanCache) : Holds P c.clear := by
  intro e he
  cases he

theorem Holds.without (h : Holds P c) (fingerprint : Fingerprint) :
    Holds P (c.without fingerprint) := fun e he => h e (List.mem_filter.1 he).1

/-- **A hit is a plan for the text that was looked up,** and a look-up changes no plan. -/
theorem Holds.lookup (h : Holds P c) (fingerprint : Fingerprint) (canonical : String) :
    Holds P (c.lookup fingerprint canonical).2 ∧
      ∀ e, (c.lookup fingerprint canonical).1 = .hit e → P canonical e.plan := by
  unfold PlanCache.lookup
  cases hentry : c.entry? fingerprint with
  | none => exact ⟨h, nofun⟩
  | some e =>
    have he : P e.canonical e.plan := h e (List.mem_of_find?_eq_some hentry)
    dsimp only
    by_cases hsame : e.canonical ≠ canonical
    · rw [if_pos hsame]
      exact ⟨h, nofun⟩
    · rw [if_neg hsame]
      have hsame := Decidable.not_not.1 hsame
      refine ⟨fun e' he' => ?_, fun e' heq => ?_⟩
      · obtain ⟨old, hold, rfl⟩ := List.mem_map.1 he'
        split
        · exact he
        · exact h old hold
      · cases heq
        rw [← hsame]
        exact he

/-- A look-up that does not hit leaves the cache as it is. -/
theorem lookup_of_not_hit {fingerprint : Fingerprint} {canonical : String}
    (h : ∀ e, (c.lookup fingerprint canonical).1 ≠ .hit e) :
    (c.lookup fingerprint canonical).2 = c := by
  revert h
  unfold PlanCache.lookup
  cases c.entry? fingerprint with
  | none => intro _; rfl
  | some e =>
    dsimp only
    by_cases hother : e.canonical ≠ canonical
    · rw [if_pos hother]
      intro _
      rfl
    · rw [if_neg hother]
      intro h
      exact absurd rfl (h _)

/-- **An entry for another text is not found,** though it is for the fingerprint
that is looked up. -/
theorem not_hit_of_collision {fingerprint : Fingerprint} {canonical : String} {e : CacheEntry}
    (hentry : c.entry? fingerprint = some e) (hother : e.canonical ≠ canonical)
    (found : CacheEntry) :
    (c.lookup fingerprint canonical).1 ≠ .hit found := by
  rw [PlanCache.lookup, hentry]
  dsimp only
  rw [if_pos hother]
  exact nofun

/-- A plan that was put in is found for its text. -/
theorem lookup_insert (fingerprint : Fingerprint) (canonical : String) (plan : Plan)
    (cost : QueryCost) : ∃ e cache,
      (c.insert fingerprint canonical plan cost).2.lookup fingerprint canonical = (.hit e, cache) ∧
        e.plan = plan := by
  have hgone : ∀ c : PlanCache, PlanCache.entry? (c.without fingerprint) fingerprint = none := by
    intro c
    refine List.find?_eq_none.2 fun e he => ?_
    simpa using (List.mem_filter.1 he).2
  obtain ⟨e, hentry, htext, hplan⟩ : ∃ e,
      PlanCache.entry? (c.insert fingerprint canonical plan cost).2 fingerprint = some e ∧
        e.canonical = canonical ∧ e.plan = plan := by
    unfold PlanCache.insert PlanCache.entry?
    dsimp only
    rw [List.find?_append, show List.find? _ (PlanCache.without _ _).entries = none from hgone _,
      Option.none_or]
    exact ⟨⟨fingerprint, canonical, plan, cost, _⟩, List.find?_cons_of_pos (by simp), rfl, rfl⟩
  rw [PlanCache.lookup, hentry]
  dsimp only
  rw [if_neg (by simpa using htext)]
  exact ⟨_, _, rfl, hplan⟩

/-- Putting a plan in keeps the property if it holds of the plan. -/
theorem Holds.insert (h : Holds P c) {canonical : String} {plan : Plan} (hplan : P canonical plan)
    (fingerprint : Fingerprint) (cost : QueryCost) :
    Holds P (c.insert fingerprint canonical plan cost).2 := by
  intro e he
  rcases List.mem_append.1 he with he | he
  · -- an older entry: those of the fingerprint are dropped, and one more if the cache is full
    have hkept : Holds P { c with tick := c.tick + 1 } := h
    revert he
    split
    · exact (hkept.without _).without _ e
    · exact hkept.without _ e
  · rw [List.mem_singleton.1 he]
    exact hplan

end RecordLayer.PlanCache
