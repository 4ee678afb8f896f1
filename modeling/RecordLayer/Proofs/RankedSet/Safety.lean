import RecordLayer.Proofs.RankedSet.Runs

/-!
# The arena is safe

Nothing that a ranked set does leaves its arena: a link leads to a node that holds a value and
reaches the level of the link, and free slots are out of the way. The partial steps of the
operations (a link that exists, a linked node that holds a value, a distance that can be shortened)
all succeed, so every run of changes comes to an end.

* The towers that a set stands for account for all slots that are not free, so a link that is found
  anywhere in the arena is one of those that the towers prescribe.
* A node is vacated when its slot is given back. A vacant node has no links, and relinking the
  others does not give it any, so it stays vacant until the slot is taken again.
* A walk along a level passes one tower after the other, so it stops before the steps that it is
  given run out, whatever is looked for.
* A slot is added only if none is free. The elements fill the arena then, so its size is one more
  than the largest number of elements that there have been.
-/

namespace RecordLayer.RankedSet

variable {α : Type}

/-! ## Safe arenas -/

/-- A node that has been given back. -/
def vacant : Node α := ⟨none, []⟩

/-- The slot holds a value and has a link of the level. -/
def Reaches (s : RankedSet α) (slot level : Nat) : Prop :=
  ∃ value links, s.nodes[slot]? = some ⟨some value, links⟩ ∧ level < links.length

/-- No link leads out of the arena or to a free slot, and all slots are accounted for. -/
structure Safe (s : RankedSet α) : Prop where
  /-- The head holds no value and has a link of every level. -/
  head : ∃ links, s.nodes[0]? = some ⟨none, links⟩ ∧ links.length = levels
  /-- A link of a level leads to a slot that holds a value and reaches the level. -/
  linked : ∀ slot level link, s.link? slot level = some link →
    ∀ next, link.target = some next → s.Reaches next level
  free_nodup : s.free.Nodup
  free_vacant : ∀ slot ∈ s.free, s.nodes[slot]? = some vacant
  /-- No link leads to a free slot. -/
  unlinked : ∀ slot level link, s.link? slot level = some link →
    ∀ next ∈ s.free, link.target ≠ some next
  /-- There are slots for the head and the elements, and the free ones. -/
  size_nodes : s.nodes.size = 1 + s.size + s.free.length

/-! ## Relinking -/

/-- Nodes that come from others by replacing links. -/
inductive Relinked : Array (Node α) → Array (Node α) → Prop
  | refl (nodes : Array (Node α)) : Relinked nodes nodes
  | setLink {nodes nodes' : Array (Node α)} (slot level : Nat) (l : Link)
    (h : Relinked (setLink nodes slot level l) nodes') : Relinked nodes nodes'

namespace Relinked

variable {nodes nodes' : Array (Node α)}

theorem size_eq (h : Relinked nodes nodes') : nodes'.size = nodes.size := by
  induction h with
  | refl => rfl
  | setLink slot level l _ ih => rw [ih, size_setLink]

/-- A node without links does not get any. -/
theorem vacant_of_vacant (h : Relinked nodes nodes') {slot : Nat}
    (hslot : nodes[slot]? = some vacant) : nodes'[slot]? = some vacant := by
  induction h with
  | refl => exact hslot
  | setLink other level l _ ih =>
    refine ih ?_
    rw [RankedSet.setLink, Array.getElem?_modify, hslot]
    split <;> rfl

end Relinked

theorem spliceIn?_relinked {slot height base : Nat} {ends : List (Nat × Nat)} {level : Nat}
    {nodes nodes' : Array (Node α)}
    (h : spliceIn? slot height base level ends nodes = some nodes') : Relinked nodes nodes' := by
  induction ends generalizing level nodes with
  | nil =>
    cases h
    exact .refl _
  | cons place rest ih =>
    rw [spliceIn?] at h
    obtain ⟨node, -, h⟩ := Option.bind_eq_some_iff.1 h
    obtain ⟨old, -, h⟩ := Option.bind_eq_some_iff.1 h
    by_cases hlevel : level < height
    · rw [if_pos hlevel] at h
      obtain ⟨new, -, h⟩ := Option.bind_eq_some_iff.1 h
      obtain ⟨link, -, h⟩ := Option.bind_eq_some_iff.1 h
      obtain ⟨after, -, h⟩ := Option.bind_eq_some_iff.1 h
      obtain ⟨before, -, h⟩ := Option.bind_eq_some_iff.1 h
      exact .setLink _ _ _ (.setLink _ _ _ (ih h))
    · rw [if_neg hlevel] at h
      exact .setLink _ _ _ (ih h)

theorem spliceOut?_relinked {slot : Nat} {ends : List (Nat × Nat)} {level : Nat}
    {nodes nodes' : Array (Node α)} (h : spliceOut? slot level ends nodes = some nodes') :
    Relinked nodes nodes' := by
  induction ends generalizing level nodes with
  | nil =>
    cases h
    exact .refl _
  | cons place rest ih =>
    rw [spliceOut?] at h
    obtain ⟨node, -, h⟩ := Option.bind_eq_some_iff.1 h
    obtain ⟨old, -, h⟩ := Option.bind_eq_some_iff.1 h
    by_cases htarget : old.target = some slot
    · rw [if_pos htarget] at h
      obtain ⟨removed, -, h⟩ := Option.bind_eq_some_iff.1 h
      obtain ⟨link, -, h⟩ := Option.bind_eq_some_iff.1 h
      obtain ⟨span, -, h⟩ := Option.bind_eq_some_iff.1 h
      exact .setLink _ _ _ (ih h)
    · rw [if_neg htarget] at h
      obtain ⟨span, -, h⟩ := Option.bind_eq_some_iff.1 h
      exact .setLink _ _ _ (ih h)

/-! ## What a change does to the free slots -/

section Changes

variable {s s' : RankedSet α} {value : α}

theorem free_allocate (s : RankedSet α) (value : α) (height : Nat) :
    (s.allocate value height).2.2 = s.free.tail := by
  unfold allocate
  cases s.free <;> rfl

/-- Taking a slot leaves the nodes of the other free slots as they are. -/
theorem getElem?_allocate {height slot : Nat} (hfree : s.free.Nodup)
    (hslot : slot ∈ s.free.tail) :
    (s.allocate value height).2.1[slot]? = s.nodes[slot]? := by
  unfold allocate
  cases hf : s.free with
  | nil => simp [hf] at hslot
  | cons taken free =>
    rw [hf] at hfree hslot
    have hne : taken ≠ slot := fun heq => (List.nodup_cons.1 hfree).1 (heq ▸ hslot)
    exact Array.getElem?_setIfInBounds_ne hne

variable [Ord α]

/-- An insertion takes the first free slot, if there is one. -/
theorem insertWith?_free {height : Nat} (h : s.insertWith? value height = some s') :
    s'.free = s.free.tail ∧ s'.size = s.size + 1 ∧
      Relinked (s.allocate value height).2.1 s'.nodes := by
  obtain ⟨ends, -, h⟩ := Option.bind_eq_some_iff.1 h
  obtain ⟨⟨_, base⟩, -, h⟩ := Option.bind_eq_some_iff.1 h
  obtain ⟨nodes, hnodes, h⟩ := Option.bind_eq_some_iff.1 h
  cases h
  exact ⟨free_allocate s value height, rfl, spliceIn?_relinked hnodes⟩

/-- A removal that finds the value vacates its slot and gives it back. -/
theorem remove?_free {found : Bool} (h : s.remove? value = some (found, s')) :
    s' = s ∨ ∃ slot nodes, slot < s.nodes.size ∧ Relinked s.nodes nodes ∧
      s'.nodes = nodes.setIfInBounds slot vacant ∧ s'.free = slot :: s.free ∧
      s'.size + 1 = s.size := by
  obtain ⟨ends, -, h⟩ := Option.bind_eq_some_iff.1 h
  obtain ⟨⟨prev, _⟩, -, h⟩ := Option.bind_eq_some_iff.1 h
  obtain ⟨link, -, h⟩ := Option.bind_eq_some_iff.1 h
  cases htarget : link.target with
  | none =>
    simp only [htarget] at h
    cases h
    exact .inl rfl
  | some slot =>
    simp only [htarget] at h
    obtain ⟨v, hv, h⟩ := Option.bind_eq_some_iff.1 h
    obtain ⟨node, hnode, -⟩ := Option.bind_eq_some_iff.1 hv
    by_cases heq : (compare v value != .eq) = true
    · rw [if_pos heq] at h
      cases h
      exact .inl rfl
    · rw [if_neg heq] at h
      obtain ⟨nodes, hnodes, h⟩ := Option.bind_eq_some_iff.1 h
      obtain ⟨size, hsize, h⟩ := Option.bind_eq_some_iff.1 h
      cases h
      refine .inr ⟨slot, nodes, (Array.getElem?_eq_some_iff.1 hnode).1, spliceOut?_relinked hnodes,
        rfl, rfl, ?_⟩
      unfold sub? at hsize
      split at hsize
      · cases hsize
        show s.size - 1 + 1 = s.size
        omega
      · cases hsize

end Changes

/-! ## All slots -/

namespace Represents

variable {s : RankedSet α} {towers : List (Tower α)}

/-- A slot that is not free is that of a place: there are no others. -/
theorem exists_place (h : Represents s towers) {slot : Nat} (hlt : slot < s.nodes.size)
    (hfree : slot ∉ s.free) : ∃ place rest, place ++ rest = towers ∧ endSlot place = slot := by
  by_cases hslot : slot ∈ 0 :: towers.map (·.slot)
  · rcases List.mem_cons.1 hslot with rfl | hslot
    · exact ⟨[], towers, rfl, rfl⟩
    · obtain ⟨e, he, rfl⟩ := List.mem_map.1 hslot
      obtain ⟨place, rest, rfl⟩ := List.append_of_mem he
      exact ⟨place ++ [e], rest, by simp, by simp⟩
  · -- with one more slot than that there would be more than the arena has
    have hnodup : (slot :: 0 :: (towers.map (·.slot) ++ s.free)).Nodup := by
      refine List.nodup_cons.2 ⟨fun hmem => ?_, h.slots⟩
      rw [← List.cons_append] at hmem
      exact (List.mem_append.1 hmem).elim hslot hfree
    have hsize := h.size_nodes
    have hsubset : slot :: 0 :: (towers.map (·.slot) ++ s.free) ⊆ List.range s.nodes.size := by
      intro i hi
      rw [List.mem_range]
      rcases List.mem_cons.1 hi with rfl | hi
      · exact hlt
      rcases List.mem_cons.1 hi with rfl | hi
      · omega
      rcases List.mem_append.1 hi with hi | hi
      · obtain ⟨e, he, rfl⟩ := List.mem_map.1 hi
        exact h.slot_lt he
      · exact h.free_lt i hi
    have hlength := hnodup.length_le_of_subset hsubset
    simp only [List.length_cons, List.length_append, List.length_map, List.length_range] at hlength
    omega

/-- **An arena whose free slots are vacant is safe.** -/
theorem safe (h : Represents s towers) (hvacant : ∀ slot ∈ s.free, s.nodes[slot]? = some vacant) :
    s.Safe := by
  have hlinked : ∀ slot level link, s.link? slot level = some link →
      ∀ next, link.target = some next → s.Reaches next level := by
    intro slot level link hlink next htarget
    obtain ⟨node, hnode, hget⟩ := Option.bind_eq_some_iff.1 hlink
    -- a vacant node has no links, so this one belongs to a place within the towers
    have hfree : slot ∉ s.free := by
      intro hmem
      rw [hvacant slot hmem] at hnode
      cases hnode
      cases hget
    obtain ⟨place, rest, ht, rfl⟩ := h.exists_place (Array.getElem?_eq_some_iff.1 hnode).1 hfree
    have hplace := h.node place rest ht
    rw [NodeIs, hnode] at hplace
    cases hplace
    have hlevel : level < endHeight place := by
      simpa using (List.getElem?_eq_some_iff.1 hget).1
    rw [h.link?_place ht hlevel] at hlink
    cases hlink
    rcases low_or_first level rest with hlow | ⟨low, e, later, rfl, hlow, he⟩
    · rw [← List.append_nil rest, linkTo_append_low hlow] at htarget
      cases htarget
    · rw [linkTo_append_reaching hlow he] at htarget
      cases htarget
      have hnext := h.node_tower (show (place ++ low) ++ e :: later = towers by simpa using ht)
      exact ⟨e.value, _, hnext, by simpa using he⟩
  refine ⟨⟨_, h.node [] towers rfl, by simp⟩, hlinked, ?_, hvacant, ?_, ?_⟩
  · exact (List.nodup_append.1 (List.nodup_cons.1 h.slots).2).2.1
  · intro slot level link hlink next hmem htarget
    obtain ⟨value, links, hnode, -⟩ := hlinked slot level link hlink next htarget
    rw [hvacant next hmem] at hnode
    cases hnode
  · rw [h.size]
    exact h.size_nodes

end Represents

/-! ## Searches -/

/-- A walk along the level does not go on from the slot: the link there leads to nothing, or to a
value that does not satisfy `before`. -/
def Stops (s : RankedSet α) (before : α → Bool) (slot level : Nat) : Prop :=
  ∃ link, s.link? slot level = some link ∧
    ∀ next, link.target = some next → ∃ value, s.value? next = some value ∧ before value = false

/-- A search comes to a slot on every level, and could not have gone on from there. -/
structure Finds (s : RankedSet α) (before : α → Bool) (ends : List (Nat × Nat)) : Prop where
  found : s.predecessors? before = some ends
  length : ends.length = levels
  stops : ∀ level place, ends[level]? = some place → s.Stops before place.1 level

namespace Represents

variable {s : RankedSet α} {towers : List (Tower α)}

/-- Whatever is looked for, a walk along a level stops within as many steps as there are towers
ahead, at a place that has a link of the level. -/
theorem walk?_stops (h : Represents s towers) (before : α → Bool) {level : Nat} :
    ∀ (fuel : Nat) (place rest : List (Tower α)), place ++ rest = towers →
      level < endHeight place → rest.length ≤ fuel →
      ∃ place' rest', place' ++ rest' = towers ∧ level < endHeight place' ∧
        s.walk? before level fuel (endSlot place, place.length) =
          some (endSlot place', place'.length) ∧
        s.Stops before (endSlot place') level
  | 0, place, rest, ht, hl, hfuel => by
    obtain rfl := List.eq_nil_of_length_eq_zero (Nat.le_zero.1 hfuel)
    refine ⟨place, [], ht, hl, rfl, _, h.link?_place ht hl, fun next hnext => ?_⟩
    cases hnext
  | fuel + 1, place, rest, ht, hl, hfuel => by
    have hlink := h.link?_place ht hl
    rcases low_or_first level rest with hlow | ⟨low, e, later, rfl, hlow, he⟩
    · -- no tower ahead reaches the level
      have htarget : (linkTo level rest).target = none := by
        rw [← List.append_nil rest, linkTo_append_low hlow]
        rfl
      refine ⟨place, rest, ht, hl, ?_, _, hlink, fun next hnext => ?_⟩
      · simp [walk?, hlink, htarget]
      · rw [htarget] at hnext
        cases hnext
    · have hvalue := h.value?_tower (show (place ++ low) ++ e :: later = towers by simpa using ht)
      rw [linkTo_append_reaching hlow he] at hlink
      -- the next tower that reaches the level is passed, or the walk ends in front of it
      by_cases hbefore : before e.value = true
      · obtain ⟨place', rest', ht', hl', hgo, hstops⟩ := h.walk?_stops before fuel
          (place ++ low ++ [e]) later (by simpa using ht) (by simpa using he)
          (by simp at hfuel; omega)
        refine ⟨place', rest', ht', hl', ?_, hstops⟩
        rw [walk?]
        simpa [hlink, hvalue, hbefore, Nat.add_assoc] using hgo
      · refine ⟨place, _, ht, hl, ?_, _, hlink, fun next hnext => ?_⟩
        · simp [walk?, hlink, hvalue, hbefore]
        · cases hnext
          exact ⟨e.value, hvalue, by simpa using hbefore⟩

theorem descend?_stops (h : Represents s towers) (before : α → Bool) :
    ∀ (n : Nat) (place rest : List (Tower α)) (ends : List (Nat × Nat)), place ++ rest = towers →
      n ≤ endHeight place → ∃ front, front.length = n ∧
        s.descend? before n (endSlot place, place.length) ends = some (front ++ ends) ∧
        ∀ level place, front[level]? = some place → s.Stops before place.1 level
  | 0, _, _, ends, _, _ => ⟨[], rfl, rfl, by simp⟩
  | n + 1, place, rest, ends, ht, hn => by
    have hfuel : rest.length ≤ s.nodes.size := by
      have hlength := congrArg List.length ht
      have hsize := h.size_nodes
      simp at hlength
      omega
    -- one level is walked, and the levels below it from where the walk stopped
    obtain ⟨place', rest', ht', hl', hwalk, hstops⟩ := h.walk?_stops before _ place rest ht hn hfuel
    obtain ⟨front, hlength, hdescend, hfront⟩ := h.descend?_stops before n place' rest'
      ((endSlot place', place'.length) :: ends) ht' (Nat.le_of_lt hl')
    refine ⟨front ++ [(endSlot place', place'.length)], by simp [hlength], ?_, ?_⟩
    · rw [descend?, hwalk]
      simpa using hdescend
    · intro level found hfound
      by_cases hlevel : level < n
      · rw [List.getElem?_append_left (by omega)] at hfound
        exact hfront level found hfound
      · have hlast : level - front.length = 0 := by
          have := (List.getElem?_eq_some_iff.1 hfound).1
          simp at this
          omega
        rw [List.getElem?_append_right (by omega), hlast] at hfound
        cases hfound
        obtain rfl : level = n := by omega
        exact hstops

/-- **Every search comes to an end on every level,** and not because it runs out of steps. -/
theorem exists_finds (h : Represents s towers) (before : α → Bool) :
    ∃ ends, s.Finds before ends := by
  obtain ⟨front, hlength, hdescend, hstops⟩ :=
    h.descend?_stops before levels [] towers [] rfl (Nat.le_refl _)
  rw [List.append_nil] at hdescend
  exact ⟨front, hdescend, hlength, hstops⟩

end Represents

/-! ## Changes -/

variable [Ord α]

/-- The set stands for an ascending list, and its free slots are vacant. -/
structure Sound (s : RankedSet α) (values : List α) : Prop where
  holds : Holds s values
  free_vacant : ∀ slot ∈ s.free, s.nodes[slot]? = some vacant

theorem sound_empty (source : Heights) : Sound (empty source : RankedSet α) [] :=
  ⟨holds_empty source, by simp [empty]⟩

namespace Sound

variable {s : RankedSet α} {values : List α}

theorem safe (h : Sound s values) : s.Safe := by
  obtain ⟨towers, hs, -⟩ := h.holds
  exact hs.safe h.free_vacant

theorem exists_finds (h : Sound s values) (before : α → Bool) : ∃ ends, s.Finds before ends := by
  obtain ⟨towers, hs, -⟩ := h.holds
  exact hs.exists_finds before

variable [Std.TransOrd α]

/-- An insertion adds a slot only if the elements leave none free. -/
theorem insertWith? (h : Sound s values) (value : α) {height : Nat} (hpos : 1 ≤ height)
    (hle : height ≤ levels) : ∃ s', s.insertWith? value height = some s' ∧
      Sound s' (insertSorted value values) ∧ s'.nodes.size = max s.nodes.size (1 + s'.size) := by
  obtain ⟨s', hinsert, hs'⟩ := h.holds.insertWith? value hpos hle
  obtain ⟨hfree, hsize, hrelinked⟩ := insertWith?_free hinsert
  have hvacant : ∀ slot ∈ s'.free, s'.nodes[slot]? = some vacant := by
    intro slot hslot
    rw [hfree] at hslot
    refine hrelinked.vacant_of_vacant ?_
    rw [getElem?_allocate h.safe.free_nodup hslot]
    exact h.free_vacant slot (List.mem_of_mem_tail hslot)
  have hsound : Sound s' (insertSorted value values) := ⟨hs', hvacant⟩
  refine ⟨s', hinsert, hsound, ?_⟩
  have hbefore := h.safe.size_nodes
  have hafter := hsound.safe.size_nodes
  rw [hfree, List.length_tail] at hafter
  omega

/-- A removal adds no slot. -/
theorem remove? (h : Sound s values) (value : α) :
    ∃ s', s.remove? value = some (values.any (compare · value == .eq), s') ∧
      Sound s' (values.eraseP (compare · value == .eq)) ∧
      s'.nodes.size = max s.nodes.size (1 + s'.size) := by
  obtain ⟨s', hremove, hs'⟩ := h.holds.remove? value
  have hbefore := h.safe.size_nodes
  rcases remove?_free hremove with rfl | ⟨slot, nodes, hlt, hrelinked, hnodes, hfree, hsize⟩
  · exact ⟨s', hremove, ⟨hs', h.free_vacant⟩, by omega⟩
  · refine ⟨s', hremove, ⟨hs', fun other hother => ?_⟩, ?_⟩
    · rw [hnodes]
      by_cases hsame : other = slot
      · rw [hsame, Array.getElem?_setIfInBounds_self_of_lt (by rw [hrelinked.size_eq]; exact hlt)]
      · rw [Array.getElem?_setIfInBounds_ne (Ne.symm hsame)]
        rw [hfree] at hother
        exact hrelinked.vacant_of_vacant
          (h.free_vacant other ((List.mem_cons.1 hother).resolve_left hsame))
    · rw [hnodes, Array.size_setIfInBounds, hrelinked.size_eq]
      omega

end Sound

/-! ## Runs -/

/-- The run comes by a set: at its start, at its end or in between. -/
inductive Passes : RankedSet α → (Nat → Nat) → List (Change α) → RankedSet α → Prop
  | start (s : RankedSet α) (heights : Nat → Nat) (changes : List (Change α)) :
    Passes s heights changes s
  | insert {s s₁ s' : RankedSet α} {heights : Nat → Nat} {changes : List (Change α)} {value : α}
    (h : s.insertWith? value (heights 0) = some s₁)
    (hlater : Passes s₁ (fun i => heights (i + 1)) changes s') :
    Passes s heights (.insert value :: changes) s'
  | remove {s s₁ s' : RankedSet α} {heights : Nat → Nat} {changes : List (Change α)} {value : α}
    {found : Bool} (h : s.remove? value = some (found, s₁))
    (hlater : Passes s₁ heights changes s') :
    Passes s heights (.remove value :: changes) s'

/-- A set that a run comes by and that has the most elements. -/
structure IsPeak (s : RankedSet α) (heights : Nat → Nat) (changes : List (Change α))
    (peak : RankedSet α) : Prop where
  passes : Passes s heights changes peak
  largest : ∀ other, Passes s heights changes other → other.size ≤ peak.size

section Runs

variable {s s₁ other : RankedSet α} {heights : Nat → Nat} {changes : List (Change α)} {value : α}

theorem passes_nil_iff : Passes s heights [] other ↔ other = s := by
  constructor
  · intro h
    cases h
    rfl
  · rintro rfl
    exact .start ..

theorem passes_insert_iff (h : s.insertWith? value (heights 0) = some s₁) :
    Passes s heights (.insert value :: changes) other ↔
      other = s ∨ Passes s₁ (fun i => heights (i + 1)) changes other := by
  constructor
  · intro hpasses
    cases hpasses with
    | start => exact .inl rfl
    | insert h' hlater =>
      cases h.symm.trans h'
      exact .inr hlater
  · rintro (rfl | hlater)
    · exact .start ..
    · exact .insert h hlater

theorem passes_remove_iff {found : Bool} (h : s.remove? value = some (found, s₁)) :
    Passes s heights (.remove value :: changes) other ↔
      other = s ∨ Passes s₁ heights changes other := by
  constructor
  · intro hpasses
    cases hpasses with
    | start => exact .inl rfl
    | remove h' hlater =>
      cases h.symm.trans h'
      exact .inr hlater
  · rintro (rfl | hlater)
    · exact .start ..
    · exact .remove h hlater

/-- With one more change in front, the peak is the old one or the set at the start. -/
theorem IsPeak.cons {heights₁ : Nat → Nat} {change : Change α} {peak : RankedSet α}
    (h : IsPeak s₁ heights₁ changes peak)
    (hpasses : ∀ other, Passes s heights (change :: changes) other ↔
      other = s ∨ Passes s₁ heights₁ changes other) :
    ∃ peak', IsPeak s heights (change :: changes) peak' ∧ peak'.size = max s.size peak.size := by
  by_cases hle : s.size ≤ peak.size
  · refine ⟨peak, ⟨(hpasses peak).2 (.inr h.passes), fun other hother => ?_⟩, by omega⟩
    rcases (hpasses other).1 hother with rfl | hother
    · exact hle
    · exact h.largest other hother
  · refine ⟨s, ⟨.start .., fun other hother => ?_⟩, by omega⟩
    rcases (hpasses other).1 hother with rfl | hother
    · exact Nat.le_refl _
    · have := h.largest other hother
      omega

variable [Std.TransOrd α]

/-- A run comes to an end, every set that it comes by is sound, and the arena grows with the peak
only. -/
theorem Sound.changeAll? {bag : List α} (h : Sound s (inOrder bag))
    (hheights : ∀ i, 1 ≤ heights i ∧ heights i ≤ levels) (changes : List (Change α)) :
    ∃ s', s.changeAll? heights changes = some (findings bag changes, s') ∧
      Passes s heights changes s' ∧
      (∀ other, Passes s heights changes other → ∃ values, Sound other values) ∧
      ∃ peak, IsPeak s heights changes peak ∧ s'.nodes.size = max s.nodes.size (1 + peak.size) := by
  induction changes generalizing s bag heights with
  | nil =>
    have hsize := h.safe.size_nodes
    refine ⟨s, rfl, .start .., fun other hother => ?_, s, ⟨.start .., fun other hother => ?_⟩,
      by omega⟩
    · exact passes_nil_iff.1 hother ▸ ⟨_, h⟩
    · exact Nat.le_of_eq (congrArg RankedSet.size (passes_nil_iff.1 hother))
  | cons change changes ih =>
    have hsize := h.safe.size_nodes
    cases change with
    | insert value =>
      obtain ⟨s₁, hinsert, hs₁, hgrown⟩ := h.insertWith? value (hheights 0).1 (hheights 0).2
      rw [← inOrder_insert] at hs₁
      obtain ⟨s', hrun, hend, hsound, peak, hpeak, hgrown'⟩ := ih hs₁ fun i => hheights (i + 1)
      -- the rest of the run starts at `s₁`, so its peak is no smaller than that
      obtain ⟨peak', hpeak', hlargest⟩ := hpeak.cons fun _ => passes_insert_iff hinsert
      have hstart := hpeak.largest s₁ (.start ..)
      refine ⟨s', ?_, .insert hinsert hend, fun other hother => ?_, peak', hpeak', by omega⟩
      · rw [RankedSet.changeAll?, hinsert]
        exact hrun
      · rcases (passes_insert_iff hinsert).1 hother with rfl | hother
        · exact ⟨_, h⟩
        · exact hsound other hother
    | remove value =>
      obtain ⟨s₁, hremove, hs₁, hgrown⟩ := h.remove? value
      rw [← inOrder_eraseP] at hs₁
      obtain ⟨s', hrun, hend, hsound, peak, hpeak, hgrown'⟩ := ih hs₁ hheights
      obtain ⟨peak', hpeak', hlargest⟩ := hpeak.cons fun _ => passes_remove_iff hremove
      have hstart := hpeak.largest s₁ (.start ..)
      refine ⟨s', ?_, .remove hremove hend, fun other hother => ?_, peak', hpeak', by omega⟩
      · rw [RankedSet.changeAll?, hremove, (inOrder_perm bag).any_eq]
        simp only [Option.bind_eq_bind, Option.bind_some, hrun]
        rfl
      · rcases (passes_remove_iff hremove).1 hother with rfl | hother
        · exact ⟨_, h⟩
        · exact hsound other hother

/-- **No run of changes leaves the arena,** whatever the heights of the towers are. Every step that
the operations write as partial succeeds, every set that the run comes by is safe and any search in
it comes to an end, and the arena has one slot more than the largest of these sets had elements. -/
theorem safe_of_run (source : Heights) (heights : Nat → Nat)
    (hheights : ∀ i, 1 ≤ heights i ∧ heights i ≤ levels) (changes : List (Change α)) :
    ∃ s, (empty source : RankedSet α).changeAll? heights changes = some (findings [] changes, s) ∧
      Passes (empty source) heights changes s ∧
      (∀ other, Passes (empty source) heights changes other →
        other.Safe ∧ ∀ before, ∃ ends, other.Finds before ends) ∧
      ∃ peak, IsPeak (empty source) heights changes peak ∧ s.nodes.size = 1 + peak.size := by
  have hempty : Sound (empty source : RankedSet α) (inOrder []) := by
    rw [inOrder, List.mergeSort_nil]
    exact sound_empty source
  obtain ⟨s, hrun, hend, hsound, peak, hpeak, hgrown⟩ := hempty.changeAll? hheights changes
  refine ⟨s, hrun, hend, fun other hother => ?_, peak, hpeak, ?_⟩
  · obtain ⟨values, hother⟩ := hsound other hother
    exact ⟨hother.safe, hother.exists_finds⟩
  · rw [hgrown]
    show max 1 (1 + peak.size) = 1 + peak.size
    omega

/-- Low towers, but for the fourth one, which reaches every level. -/
def tallFourth (i : Nat) : Nat := if i = 3 then levels else 1 + i % 2

theorem tallFourth_bounds (i : Nat) : 1 ≤ tallFourth i ∧ tallFourth i ≤ levels := by
  unfold tallFourth levels
  split <;> omega

/-- The slot of the removed value is taken by the last one. -/
def reuse : List (Change Int) := [.insert 1, .insert 2, .insert 3, .remove 2, .insert 4]

theorem safe_of_run_reuse : (∀ i, 1 ≤ tallFourth i ∧ tallFourth i ≤ levels) ∧
    ∃ s, (empty .ruler : RankedSet Int).changeAll? tallFourth reuse = some ([true], s) ∧
      Passes (empty .ruler) tallFourth reuse s ∧
      (∀ other, Passes (empty .ruler) tallFourth reuse other →
        other.Safe ∧ ∀ before, ∃ ends, other.Finds before ends) ∧
      ∃ peak, IsPeak (empty .ruler) tallFourth reuse peak ∧ s.nodes.size = 1 + peak.size :=
  ⟨tallFourth_bounds, safe_of_run .ruler tallFourth tallFourth_bounds reuse⟩

example : ((empty .ruler : RankedSet Int).changeAll? tallFourth reuse).map (·.2.nodes.size) =
    some 4 := by
  decide +kernel

end Runs

end RecordLayer.RankedSet
