import RecordLayer.PlanCache

/-!
# A plan cache forgets the plan that was touched first

The entries of a cache stand in no order that means anything: which of them has to go is told by
ticks alone. What the ticks are for is a list of plans, the one touched last in front. Putting a
plan in, or finding one, brings it to the front; a look-up that finds nothing, or that finds the
plan of another text, touches nothing; the plan at the end is the one that goes. `Recency` is that
list, and a cache answers every sequence of calls as the list does.

Sequences of calls stand with the latest call first.
-/

namespace RecordLayer

/-! ## Calls and what they answer -/

/-- A plan as it was put in. -/
structure Remembered where
  fingerprint : Fingerprint
  canonical : String
  plan : Plan
  cost : QueryCost

/-- An entry without its tick. -/
def CacheEntry.remembered (e : CacheEntry) : Remembered :=
  ⟨e.fingerprint, e.canonical, e.plan, e.cost⟩

/-- A call of a cache. -/
inductive CacheCall
  | lookup (fingerprint : Fingerprint) (canonical : String)
  | insert (r : Remembered)
  | clear

/-- What a call answers. -/
inductive CacheReply
  | found (r : Remembered)
  | missed
  | collided (fingerprint : Fingerprint)
  | inserted (evicted : Option Fingerprint)
  | cleared

namespace PlanCache

/-- Carries out a call. -/
def perform (c : PlanCache) : CacheCall → CacheReply × PlanCache
  | .lookup fingerprint canonical =>
    match c.lookup fingerprint canonical with
    | (.hit e, c) => (.found e.remembered, c)
    | (.miss, c) => (.missed, c)
    | (.collision fingerprint, c) => (.collided fingerprint, c)
  | .insert r =>
    let (evicted, c) := c.insert r.fingerprint r.canonical r.plan r.cost
    (.inserted evicted, c)
  | .clear => (.cleared, c.clear)

/-- The answers to calls of a new cache, and the cache that they lead to. -/
def run (capacity : Nat) : List CacheCall → List CacheReply × PlanCache
  | [] => ([], .ofCapacity capacity)
  | call :: earlier =>
    let (replies, c) := run capacity earlier
    let (reply, c) := c.perform call
    (reply :: replies, c)

end PlanCache

/-! ## The list by last touch -/

/-- Remembered plans, the one touched last in front. -/
abbrev Recency := List Remembered

namespace Recency

/-- Forgets a fingerprint. -/
def forget (l : Recency) (fingerprint : Fingerprint) : Recency :=
  l.filter (·.fingerprint != fingerprint)

/-- Brings a plan to the front, in the place of whatever its fingerprint stood for. -/
def touch (l : Recency) (r : Remembered) : Recency := r :: l.forget r.fingerprint

/-- The plan of a fingerprint. -/
def find (l : Recency) (fingerprint : Fingerprint) : Option Remembered :=
  l.find? (·.fingerprint == fingerprint)

/-- Carries out a call on a list that may hold `capacity` plans. -/
def perform (capacity : Nat) (l : Recency) : CacheCall → CacheReply × Recency
  | .lookup fingerprint canonical =>
    match l.find fingerprint with
    | none => (.missed, l)
    | some r =>
      if r.canonical = canonical then (.found r, l.touch r) else (.collided fingerprint, l)
  | .insert r =>
    if (l.find r.fingerprint).isSome then (.inserted none, l.touch r)
    else if l.length < capacity then (.inserted none, r :: l)
    else (.inserted (l.getLast?.map (·.fingerprint)), r :: l.dropLast)
  | .clear => (.cleared, [])

/-- The answers to calls of an empty list, and the list that they lead to. -/
def run (capacity : Nat) : List CacheCall → List CacheReply × Recency
  | [] => ([], [])
  | call :: earlier =>
    let (replies, l) := run capacity earlier
    let (reply, l) := l.perform capacity call
    (reply :: replies, l)

/-- What was put in last for a fingerprint since everything was forgotten. -/
def lastInserted? (fingerprint : Fingerprint) : List CacheCall → Option Remembered
  | [] => none
  | .clear :: _ => none
  | .insert r :: earlier =>
    if r.fingerprint = fingerprint then some r else lastInserted? fingerprint earlier
  | .lookup _ _ :: earlier => lastInserted? fingerprint earlier

/-- What is remembered for a fingerprint is what was put in last for it. -/
def Latest (calls : List CacheCall) (l : Recency) : Prop :=
  ∀ r ∈ l, lastInserted? r.fingerprint calls = some r

theorem mem_forget {l : Recency} {fingerprint : Fingerprint} {r : Remembered} :
    r ∈ l.forget fingerprint ↔ r ∈ l ∧ r.fingerprint ≠ fingerprint := by
  simp [forget]

theorem find_eq_none {l : Recency} {fingerprint : Fingerprint} :
    l.find fingerprint = none ↔ ∀ r ∈ l, r.fingerprint ≠ fingerprint := by
  simp [find]

theorem mem_of_find {l : Recency} {fingerprint : Fingerprint} {r : Remembered}
    (h : l.find fingerprint = some r) : r ∈ l ∧ r.fingerprint = fingerprint :=
  ⟨List.mem_of_find?_eq_some h, by simpa using List.find?_some h⟩

/-- The plan put in is the latest for its fingerprint; the others that are kept have another one. -/
theorem Latest.put {calls : List CacheCall} {l kept : Recency} (h : Latest calls l) (r : Remembered)
    (hkept : ∀ r' ∈ kept, r' ∈ l ∧ r'.fingerprint ≠ r.fingerprint) :
    Latest (.insert r :: calls) (r :: kept) := by
  intro r' hr'
  rcases List.mem_cons.1 hr' with rfl | hr'
  · simp [lastInserted?]
  · obtain ⟨hmem, hother⟩ := hkept r' hr'
    rw [lastInserted?, if_neg (Ne.symm hother)]
    exact h r' hmem

/-- A call leaves what is remembered the latest of its kind. -/
theorem Latest.perform {calls : List CacheCall} {l : Recency} (h : Latest calls l) (capacity : Nat)
    (call : CacheCall) : Latest (call :: calls) (l.perform capacity call).2 := by
  cases call with
  | lookup fingerprint canonical =>
    unfold Recency.perform
    dsimp only
    cases hfind : l.find fingerprint with
    | none => exact h
    | some r =>
      dsimp only
      split
      · -- a hit brings its own record to the front and leaves the others
        intro r' hr'
        rcases List.mem_cons.1 hr' with rfl | hr'
        · exact h r' (mem_of_find hfind).1
        · exact h r' (mem_forget.1 hr').1
      · exact h
  | insert r =>
    unfold Recency.perform
    dsimp only
    split
    · exact h.put r fun r' hr' => mem_forget.1 hr'
    next habsent =>
      have habsent : ∀ r' ∈ l, r'.fingerprint ≠ r.fingerprint :=
        find_eq_none.1 (Option.not_isSome_iff_eq_none.1 habsent)
      split
      · exact h.put r fun r' hr' => ⟨hr', habsent r' hr'⟩
      · exact h.put r fun r' hr' =>
          have hmem := List.dropLast_subset l hr'
          ⟨hmem, habsent r' hmem⟩
  | clear => exact fun r hr => absurd hr (by simp [Recency.perform])

theorem latest_run (capacity : Nat) (calls : List CacheCall) :
    Latest calls (run capacity calls).2 := by
  induction calls with
  | nil => exact fun r hr => absurd hr (by simp [run])
  | cons call earlier ih => exact ih.perform capacity call

end Recency

namespace PlanCache

/-! ## Ticks tell the order of touches -/

/-- The entries of a cache in the order of their ticks, the latest first. -/
structure Ordered (c : PlanCache) (entries : List CacheEntry) : Prop where
  perm : entries.Perm c.entries
  /-- No two entries have the same tick. -/
  descending : entries.Pairwise fun e e' => e'.lastUsed < e.lastUsed
  past : ∀ e ∈ entries, e.lastUsed ≤ c.tick
  distinct : entries.Pairwise (·.fingerprint ≠ ·.fingerprint)
  fits : entries.length ≤ c.capacity

namespace Ordered

variable {c : PlanCache} {entries : List CacheEntry}

theorem ofCapacity (capacity : Nat) : Ordered (.ofCapacity capacity) [] where
  perm := .nil
  descending := .nil
  past := nofun
  distinct := .nil
  fits := Nat.zero_le _

/-- An entry stands alone for its fingerprint. -/
theorem split (h : c.Ordered entries) {e : CacheEntry} (he : e ∈ entries) :
    ∃ later earlier, entries = later ++ e :: earlier ∧
      ∀ e' ∈ later ++ earlier, e'.fingerprint ≠ e.fingerprint := by
  obtain ⟨later, earlier, rfl⟩ := List.append_of_mem he
  obtain ⟨-, hearlier, hlater⟩ := List.pairwise_append.1 h.distinct
  refine ⟨later, earlier, rfl, fun e' he' => ?_⟩
  rcases List.mem_append.1 he' with he' | he'
  · exact hlater e' he' e List.mem_cons_self
  · exact Ne.symm (List.rel_of_pairwise_cons hearlier he')

theorem entry?_eq_some (h : c.Ordered entries) {fingerprint : Fingerprint} {e : CacheEntry}
    (he : c.entry? fingerprint = some e) : e ∈ entries ∧ e.fingerprint = fingerprint :=
  ⟨h.perm.mem_iff.2 (List.mem_of_find?_eq_some he), by simpa using List.find?_some he⟩

theorem entry?_eq_none (h : c.Ordered entries) {fingerprint : Fingerprint} :
    c.entry? fingerprint = none ↔ ∀ e ∈ entries, e.fingerprint ≠ fingerprint := by
  unfold PlanCache.entry?
  simp [h.perm.mem_iff]

/-- The cache and the list find the same plan. -/
theorem find_eq (h : c.Ordered entries) (fingerprint : Fingerprint) :
    Recency.find (entries.map (·.remembered)) fingerprint =
      (c.entry? fingerprint).map (·.remembered) := by
  cases hentry : c.entry? fingerprint with
  | none =>
    refine Recency.find_eq_none.2 fun r hr => ?_
    obtain ⟨e, he, rfl⟩ := List.mem_map.1 hr
    exact h.entry?_eq_none.1 hentry e he
  | some e =>
    obtain ⟨he, rfl⟩ := h.entry?_eq_some hentry
    obtain ⟨later, earlier, rfl, hother⟩ := h.split he
    have hlater : ∀ e' ∈ later, ¬(e'.fingerprint == e.fingerprint) := fun e' he' => by
      simpa using hother e' (List.mem_append_left _ he')
    have hfound : (later ++ e :: earlier).find? (·.fingerprint == e.fingerprint) = some e := by
      rw [List.find?_append, List.find?_eq_none.2 hlater, Option.none_or,
        List.find?_cons_of_pos (by simp)]
    rw [Recency.find, List.find?_map]
    exact congrArg (Option.map _) hfound

/-- **A touched entry goes to the front,** with whichever of the others are kept. -/
theorem touch (h : c.Ordered entries) {e : CacheEntry} {kept : List CacheEntry} {c' : PlanCache}
    (hkept : kept.Sublist entries) (hother : ∀ e' ∈ kept, e'.fingerprint ≠ e.fingerprint)
    (htick : e.lastUsed = c.tick + 1) (htick' : c'.tick = c.tick + 1)
    (hroom : kept.length + 1 ≤ c'.capacity) (hperm : (e :: kept).Perm c'.entries) :
    c'.Ordered (e :: kept) where
  perm := hperm
  descending := by
    refine List.pairwise_cons.2 ⟨fun e' he' => ?_, h.descending.sublist hkept⟩
    have := h.past e' (hkept.subset he')
    omega
  past := by
    intro e' he'
    rcases List.mem_cons.1 he' with rfl | he'
    · omega
    · have := h.past e' (hkept.subset he')
      omega
  distinct := List.pairwise_cons.2 ⟨fun e' he' => Ne.symm (hother e' he'), h.distinct.sublist hkept⟩
  fits := hroom

/-! ## The entry that was touched first -/

/-- What is found by going through the entries has a tick that is not after any other. -/
theorem foldl_oldest (e : CacheEntry) (rest : List CacheEntry) :
    let oldest := rest.foldl (fun best e => if e.lastUsed < best.lastUsed then e else best) e
    oldest ∈ e :: rest ∧ ∀ e' ∈ e :: rest, oldest.lastUsed ≤ e'.lastUsed := by
  induction rest generalizing e with
  | nil => simp
  | cons next rest ih =>
    rw [List.foldl_cons]
    -- the oldest so far stays, or the next entry takes its place
    by_cases holder : next.lastUsed < e.lastUsed
    · rw [if_pos holder]
      obtain ⟨hmem, hleast⟩ := ih next
      refine ⟨List.mem_cons_of_mem _ hmem, fun e' he' => ?_⟩
      rcases List.mem_cons.1 he' with rfl | he'
      · exact Nat.le_of_lt (Nat.lt_of_le_of_lt (hleast next List.mem_cons_self) holder)
      · exact hleast e' he'
    · rw [if_neg holder]
      obtain ⟨hmem, hleast⟩ := ih e
      refine ⟨(List.Sublist.cons_cons e (List.sublist_cons_self next rest)).subset hmem,
        fun e' he' => ?_⟩
      have hfirst := hleast e List.mem_cons_self
      rcases List.mem_cons.1 he' with rfl | he'
      · exact hfirst
      rcases List.mem_cons.1 he' with rfl | he'
      · exact Nat.le_trans hfirst (Nat.le_of_not_lt holder)
      · exact hleast e' (List.mem_cons_of_mem _ he')

/-- **The least recent entry is the one at the end.** -/
theorem leastRecent?_eq (h : c.Ordered entries) :
    leastRecent? c.entries = entries.getLast?.map (·.fingerprint) := by
  have hperm := h.perm
  cases hentries : c.entries with
  | nil =>
    rw [hentries] at hperm
    rw [hperm.eq_nil]
    rfl
  | cons e rest =>
    rw [hentries] at hperm
    obtain ⟨hmem, hleast⟩ := foldl_oldest e rest
    rw [leastRecent?]
    generalize rest.foldl (fun best e => if e.lastUsed < best.lastUsed then e else best) e = oldest
      at hmem hleast ⊢
    rw [← hperm.mem_iff] at hmem
    rcases List.eq_nil_or_concat entries with rfl | ⟨init, last, hlists⟩
    · cases hmem
    rw [List.concat_eq_append] at hlists
    subst hlists
    have hlast : last ∈ e :: rest := hperm.subset (by simp)
    -- every entry but the last one has a later tick than the last one
    rcases List.mem_append.1 hmem with hmem | hmem
    · have hlater := (List.pairwise_append.1 h.descending).2.2 oldest hmem last List.mem_cons_self
      have := hleast last hlast
      omega
    · rw [List.mem_singleton.1 hmem, List.getLast?_concat]
      rfl

end Ordered

/-! ## A cache does what the list does -/

/-- The cache holds the plans of the list, and its ticks put them in the order of the list. -/
def Refines (capacity : Nat) (c : PlanCache) (l : Recency) : Prop :=
  c.capacity = capacity ∧ ∃ entries, c.Ordered entries ∧ entries.map (·.remembered) = l

theorem refines_ofCapacity (capacity : Nat) :
    Refines (max 1 capacity) (.ofCapacity capacity) [] :=
  ⟨rfl, [], .ofCapacity capacity, rfl⟩

section

variable {later earlier : List CacheEntry} {e : CacheEntry}

theorem filter_absent {entries : List CacheEntry} {fingerprint : Fingerprint}
    (h : ∀ e ∈ entries, e.fingerprint ≠ fingerprint) :
    entries.filter (·.fingerprint != fingerprint) = entries :=
  List.filter_eq_self.2 fun e he => by simpa using h e he

theorem filter_split (h : ∀ e' ∈ later ++ earlier, e'.fingerprint ≠ e.fingerprint) :
    (later ++ e :: earlier).filter (·.fingerprint != e.fingerprint) = later ++ earlier := by
  rw [List.filter_append, List.filter_cons_of_neg (by simp), ← List.filter_append, filter_absent h]

theorem map_replace (h : ∀ e' ∈ later ++ earlier, e'.fingerprint ≠ e.fingerprint)
    (used : CacheEntry) :
    (later ++ e :: earlier).map (fun e' => if e'.fingerprint = e.fingerprint then used else e') =
      later ++ used :: earlier := by
  have hothers : ∀ es : List CacheEntry, (∀ e' ∈ es, e' ∈ later ++ earlier) →
      es.map (fun e' => if e'.fingerprint = e.fingerprint then used else e') = es := by
    intro es hes
    rw [List.map_congr_left fun e' he' => if_neg (h e' (hes e' he')), List.map_id']
  rw [List.map_append, List.map_cons, if_pos rfl, hothers later fun _ => List.mem_append_left _,
    hothers earlier fun _ => List.mem_append_right _]

theorem forget_split (h : ∀ e' ∈ later ++ earlier, e'.fingerprint ≠ e.fingerprint) :
    Recency.forget ((later ++ e :: earlier).map (·.remembered)) e.fingerprint =
      (later ++ earlier).map (·.remembered) := by
  rw [← filter_split h]
  exact List.filter_map

end

variable {capacity : Nat} {c : PlanCache} {l : Recency}

/-- A look-up of both: a hit touches, everything else leaves all as it is. -/
theorem Refines.lookup (h : c.Refines capacity l) (fingerprint : Fingerprint) (canonical : String) :
    (c.perform (.lookup fingerprint canonical)).1 =
        (l.perform capacity (.lookup fingerprint canonical)).1 ∧
      (c.perform (.lookup fingerprint canonical)).2.Refines capacity
        (l.perform capacity (.lookup fingerprint canonical)).2 := by
  obtain ⟨hcapacity, entries, hordered, rfl⟩ := h
  unfold PlanCache.perform Recency.perform PlanCache.lookup
  dsimp only
  rw [hordered.find_eq]
  cases hentry : c.entry? fingerprint with
  | none => exact ⟨rfl, hcapacity, entries, hordered, rfl⟩
  | some e =>
    dsimp only [Option.map_some]
    by_cases hsame : e.canonical = canonical
    · rw [if_neg (not_not_intro hsame), if_pos (show e.remembered.canonical = canonical from hsame)]
      -- a hit: the entry gets the newest tick and moves to the front
      obtain ⟨he, rfl⟩ := hordered.entry?_eq_some hentry
      obtain ⟨later, earlier, rfl, hother⟩ := hordered.split he
      refine ⟨rfl, hcapacity, { e with lastUsed := c.tick + 1 } :: (later ++ earlier), ?_, ?_⟩
      · have hsub : (later ++ earlier).Sublist (later ++ e :: earlier) :=
          (List.sublist_cons_self e earlier).append_left later
        refine hordered.touch hsub hother rfl rfl ?_ ?_
        · have := hordered.fits
          simpa [Nat.add_assoc] using this
        · have hperm := hordered.perm.map
            fun e' =>
              if e'.fingerprint = e.fingerprint then { e with lastUsed := c.tick + 1 } else e'
          rw [map_replace hother] at hperm
          exact List.perm_middle.symm.trans hperm
      · exact congrArg (e.remembered :: ·) (forget_split hother).symm
    · -- a collision leaves both as they are
      rw [if_pos hsame, if_neg (show ¬e.remembered.canonical = canonical from hsame)]
      exact ⟨rfl, hcapacity, entries, hordered, rfl⟩

/-- A plan put in, as an entry with the next tick of the cache. -/
def entryOf (c : PlanCache) (r : Remembered) : CacheEntry :=
  ⟨r.fingerprint, r.canonical, r.plan, r.cost, c.tick + 1⟩

theorem insert_of_keeping {r : Remembered}
    (h : ¬((c.entry? r.fingerprint).isNone ∧ c.capacity ≤ c.size)) :
    c.perform (.insert r) = (.inserted none, { c with
      tick := c.tick + 1
      entries := c.entries.filter (·.fingerprint != r.fingerprint) ++ [c.entryOf r] }) := by
  unfold perform PlanCache.insert
  dsimp only
  rw [if_neg h]
  rfl

theorem insert_of_evicting {r : Remembered} {least : Fingerprint}
    (h : (c.entry? r.fingerprint).isNone ∧ c.capacity ≤ c.size)
    (hleast : leastRecent? c.entries = some least) :
    c.perform (.insert r) = (.inserted (some least), { c with
      tick := c.tick + 1
      entries := (c.entries.filter (·.fingerprint != least)).filter
        (·.fingerprint != r.fingerprint) ++ [c.entryOf r] }) := by
  unfold perform PlanCache.insert
  dsimp only
  rw [if_pos h, hleast]
  rfl

/-- A plan put in goes to the front of the entries that are kept. -/
theorem Ordered.put {entries kept kept' : List CacheEntry} (h : c.Ordered entries) (r : Remembered)
    (hkept : kept.Sublist entries) (hother : ∀ e ∈ kept, e.fingerprint ≠ r.fingerprint)
    (hroom : kept.length + 1 ≤ c.capacity) (hperm : kept.Perm kept') :
    Refines c.capacity { c with tick := c.tick + 1, entries := kept' ++ [c.entryOf r] }
      (r :: kept.map (·.remembered)) :=
  ⟨rfl, c.entryOf r :: kept,
    h.touch hkept hother rfl rfl hroom
      ((hperm.cons _).trans (List.perm_append_singleton _ _).symm), rfl⟩

section Insert

variable {entries : List CacheEntry} {r : Remembered}

/-- A plan put in goes to the front, in the place of the plan of its fingerprint. -/
theorem Ordered.insert_known (h : c.Ordered entries) {e : CacheEntry}
    (hentry : c.entry? r.fingerprint = some e) :
    (c.perform (.insert r)).1 = .inserted none ∧
      (c.perform (.insert r)).2.Refines c.capacity
        (Recency.touch (entries.map (·.remembered)) r) := by
  rw [insert_of_keeping (by simp [hentry])]
  obtain ⟨he, hf⟩ := h.entry?_eq_some hentry
  obtain ⟨later, earlier, rfl, hother⟩ := h.split he
  have hroom : (later ++ earlier).length + 1 ≤ c.capacity := by
    simpa [Nat.add_assoc] using h.fits
  have hperm := h.perm.filter (·.fingerprint != e.fingerprint)
  rw [filter_split hother] at hperm
  rw [Recency.touch, ← hf, forget_split hother]
  exact ⟨rfl, h.put r ((List.sublist_cons_self e earlier).append_left later) (hf ▸ hother) hroom
    hperm⟩

/-- A plan with a new fingerprint goes to the front of all the others while there is room. -/
theorem Ordered.insert_room (h : c.Ordered entries) (hentry : c.entry? r.fingerprint = none)
    (hroom : entries.length < c.capacity) :
    (c.perform (.insert r)).1 = .inserted none ∧
      (c.perform (.insert r)).2.Refines c.capacity (r :: entries.map (·.remembered)) := by
  have habsent := h.entry?_eq_none.1 hentry
  have hsize : c.size = entries.length := h.perm.length_eq.symm
  rw [insert_of_keeping fun h => absurd h.2 (by omega),
    filter_absent fun e he => habsent e (h.perm.mem_iff.2 he)]
  exact ⟨rfl, h.put r (List.Sublist.refl _) habsent hroom h.perm⟩

/-- Where there is no room, the ticks tell that the last plan has to go. -/
theorem Ordered.insert_full {init : List CacheEntry} {last : CacheEntry}
    (h : c.Ordered (init ++ [last])) (hentry : c.entry? r.fingerprint = none)
    (hfull : c.capacity ≤ (init ++ [last]).length) :
    (c.perform (.insert r)).1 = .inserted (some last.fingerprint) ∧
      (c.perform (.insert r)).2.Refines c.capacity (r :: init.map (·.remembered)) := by
  have habsent : ∀ e ∈ init, e.fingerprint ≠ r.fingerprint := fun e he =>
    h.entry?_eq_none.1 hentry e (List.mem_append_left _ he)
  have hsize : c.size = (init ++ [last]).length := h.perm.length_eq.symm
  have hleast : leastRecent? c.entries = some last.fingerprint := by
    rw [h.leastRecent?_eq, List.getLast?_concat]
    rfl
  have hother : ∀ e ∈ init ++ [], e.fingerprint ≠ last.fingerprint := by
    intro e he
    rw [List.append_nil] at he
    exact (List.pairwise_append.1 h.distinct).2.2 e he last List.mem_cons_self
  have hperm := (h.perm.filter (·.fingerprint != last.fingerprint)).filter
    (·.fingerprint != r.fingerprint)
  rw [filter_split hother, List.append_nil, filter_absent habsent] at hperm
  rw [insert_of_evicting ⟨by rw [hentry]; rfl, by omega⟩ hleast]
  exact ⟨rfl, h.put r (List.sublist_append_left init [last]) habsent (by simpa using h.fits) hperm⟩

end Insert

/-- A plan put in goes to the front, in the place of the plan of its fingerprint or, for want of
room, of the last one. -/
theorem Refines.insert (h : c.Refines capacity l) (hpositive : 0 < capacity) (r : Remembered) :
    (c.perform (.insert r)).1 = (l.perform capacity (.insert r)).1 ∧
      (c.perform (.insert r)).2.Refines capacity (l.perform capacity (.insert r)).2 := by
  obtain ⟨rfl, entries, hordered, rfl⟩ := h
  unfold Recency.perform
  dsimp only
  rw [hordered.find_eq, List.length_map]
  cases hentry : c.entry? r.fingerprint with
  | some e =>
    rw [if_pos (by rfl)]
    exact hordered.insert_known hentry
  | none =>
    rw [if_neg (by simp)]
    by_cases hroom : entries.length < c.capacity
    · rw [if_pos hroom]
      exact hordered.insert_room hentry hroom
    · -- the cache is full: the entry used longest ago is the last of the list
      rw [if_neg hroom]
      rcases List.eq_nil_or_concat entries with rfl | ⟨init, last, hlists⟩
      · exact absurd hpositive hroom
      rw [List.concat_eq_append] at hlists
      subst hlists
      rw [List.map_append, List.map_singleton, List.getLast?_concat, List.dropLast_concat]
      exact hordered.insert_full hentry (Nat.le_of_not_lt hroom)

theorem Refines.clear (h : c.Refines capacity l) : c.clear.Refines capacity [] :=
  ⟨h.1, [], ⟨.nil, .nil, nofun, .nil, Nat.zero_le _⟩, rfl⟩

/-- **A call does with the cache what it does with the list.** -/
theorem Refines.perform (h : c.Refines capacity l) (hpositive : 0 < capacity) (call : CacheCall) :
    (c.perform call).1 = (l.perform capacity call).1 ∧
      (c.perform call).2.Refines capacity (l.perform capacity call).2 := by
  cases call with
  | lookup fingerprint canonical => exact h.lookup fingerprint canonical
  | insert r => exact h.insert hpositive r
  | clear => exact ⟨rfl, h.clear⟩

theorem Refines.size_le (h : c.Refines capacity l) : c.size ≤ capacity := by
  obtain ⟨rfl, entries, hordered, -⟩ := h
  rw [size, ← hordered.perm.length_eq]
  exact hordered.fits

/-- A call takes one tick at most. -/
theorem tick_perform_le (c : PlanCache) (call : CacheCall) :
    (c.perform call).2.tick ≤ c.tick + 1 := by
  cases call with
  | lookup fingerprint canonical =>
    unfold PlanCache.perform PlanCache.lookup
    dsimp only
    cases c.entry? fingerprint with
    | none => exact Nat.le_succ _
    | some e =>
      dsimp only
      by_cases hother : e.canonical ≠ canonical
      · rw [if_pos hother]
        exact Nat.le_succ _
      · refine Nat.le_of_eq ?_
        rw [if_neg hother]
  | insert r =>
    unfold PlanCache.perform PlanCache.insert
    dsimp only
    split <;> exact Nat.le_refl _
  | clear => exact Nat.le_succ _

/-- Ticks do not run ahead of the calls, so a counter of 64 bits lasts for as many calls. -/
theorem tick_run_le (capacity : Nat) (calls : List CacheCall) :
    (run capacity calls).2.tick ≤ calls.length := by
  induction calls with
  | nil => exact Nat.le_refl 0
  | cons call earlier ih => exact Nat.le_trans (tick_perform_le _ call) (Nat.succ_le_succ ih)

theorem run_refines (capacity : Nat) (calls : List CacheCall) :
    (run capacity calls).1 = (Recency.run (max 1 capacity) calls).1 ∧
      (run capacity calls).2.Refines (max 1 capacity) (Recency.run (max 1 capacity) calls).2 := by
  induction calls with
  | nil => exact ⟨rfl, refines_ofCapacity capacity⟩
  | cons call earlier ih =>
    obtain ⟨hreply, hrefines⟩ := ih.2.perform (Nat.le_max_left 1 capacity) call
    exact ⟨congr (congrArg List.cons hreply) ih.1, hrefines⟩

/-- **A plan cache keeps the plans that were touched last.** It answers calls as the list by last
touch does and holds what the list holds, at most `capacity` plans, or one; what it holds for a
fingerprint is what was put in last for it; and its ticks have not run ahead of the calls. -/
theorem keeps_last_touched (capacity : Nat) (calls : List CacheCall) :
    (run capacity calls).1 = (Recency.run (max 1 capacity) calls).1 ∧
      (run capacity calls).2.Refines (max 1 capacity) (Recency.run (max 1 capacity) calls).2 ∧
      (run capacity calls).2.size ≤ max 1 capacity ∧
      Recency.Latest calls (Recency.run (max 1 capacity) calls).2 ∧
      (run capacity calls).2.tick ≤ calls.length :=
  have hrefines := (run_refines capacity calls).2
  ⟨(run_refines capacity calls).1, hrefines, hrefines.size_le, Recency.latest_run _ calls,
    tick_run_le capacity calls⟩

end PlanCache

end RecordLayer
