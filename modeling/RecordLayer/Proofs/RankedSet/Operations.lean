import RecordLayer.Proofs.RankedSet.Splice

/-!
# Insertion and removal of towers

Inserting puts a tower in front of the first element above its value, removing takes the first
element equal to a value away. Both come down to splicing, with the towers grouped around a split:
the places before it are rerouted, the tower in the middle appears or disappears, and those behind
it stay as they are. Neither depends on the heights of the towers.

* A slot that is handed out is neither the head's nor a tower's, so writing to it disturbs nothing.
* A search that stops before the first element not below a value finds the value, if it is there,
  behind its lowest link.
-/

namespace RecordLayer.RankedSet

variable {α : Type}

namespace Represents

variable {s : RankedSet α} {passed rest : List (Tower α)}

theorem distinctSlots (h : Represents s (passed ++ rest)) : DistinctSlots passed :=
  fun _ low _ low' hp hp' heq => h.endSlot_inj
    (show _ ++ (low ++ rest) = _ by rw [← List.append_assoc, hp])
    (show _ ++ (low' ++ rest) = _ by rw [← List.append_assoc, hp']) heq

/-- A tower behind the split does not share the slot of a place before it. -/
theorem outside_of_mem (h : Represents s (passed ++ rest)) {e : Tower α} (he : e ∈ rest) :
    Outside passed e.slot := by
  intro place low hpl heq
  obtain ⟨mid, later, rfl⟩ := List.append_of_mem he
  have hplaces := h.endSlot_inj
    (show place ++ (low ++ (mid ++ e :: later)) = _ by rw [← List.append_assoc, hpl])
    (show (passed ++ (mid ++ [e])) ++ later = _ by simp) (by rw [heq, endSlot_append_snoc])
  have hlen := congrArg List.length hplaces
  rw [← hpl] at hlen
  simp at hlen

/-- A slot that neither the head nor a tower has. -/
theorem outside_of_ne {slot : Nat} (hzero : slot ≠ 0) (h : ∀ e ∈ passed, e.slot ≠ slot) :
    Outside passed slot := by
  rintro place low rfl heq
  rcases eq_nil_or_snoc place with rfl | ⟨p, e, rfl⟩
  · exact hzero heq.symm
  · exact h e (by simp) (by simpa using heq)

/-- Before anything is spliced in or out, the first towers link to what follows them. -/
theorem rerouted (h : Represents s (passed ++ rest)) (after : List (Tower α)) :
    Rerouted s.nodes passed rest after 0 := by
  intro place low hpl
  have hnode := h.node place (low ++ rest) (by rw [← List.append_assoc, hpl])
  simpa [NodeIs] using hnode

/-- The slot of a tower may be counted among the towers or among the free slots. -/
theorem nodup_slots_iff {e : Tower α} {free : List Nat} :
    (0 :: ((passed ++ e :: rest).map (·.slot) ++ free)).Nodup ↔
      (0 :: ((passed ++ rest).map (·.slot) ++ e.slot :: free)).Nodup := by
  refine List.Perm.nodup_iff ?_
  simp only [List.map_append, List.map_cons, List.append_assoc, List.cons_append]
  exact .cons _ (.append_left _ List.perm_middle.symm)

/-! ## The arena after an operation -/

/-- The towers after a split, seen from the places before it, the places behind it, and those in the
middle. -/
theorem node_of_split {nodes : Array (Node α)} {before after new : List (Tower α)}
    (hr : Rerouted nodes passed before (new ++ after) levels)
    (hheight : ∀ e ∈ passed, e.height ≤ levels)
    (hnew : ∀ p e q, new = p ++ e :: q →
      NodeIs nodes e.slot (some e.value) e.height (linkTo · (q ++ after)))
    (hafter : ∀ p e q, after = p ++ e :: q →
      NodeIs nodes e.slot (some e.value) e.height (linkTo · q))
    {place low : List (Tower α)} (hpl : place ++ low = passed ++ (new ++ after)) :
    NodeIs nodes (endSlot place) (endValue place) (endHeight place) (linkTo · low) := by
  have hfront : ∀ {place low}, place ++ low = passed →
      NodeIs nodes (endSlot place) (endValue place) (endHeight place)
        (linkTo · (low ++ (new ++ after))) := by
    intro place low hpl
    refine (hr place low hpl).congr fun level hlevel => if_pos ?_
    rcases eq_nil_or_snoc place with rfl | ⟨p, e, rfl⟩
    · exact hlevel
    · have he := hheight e (by simp [← hpl])
      have hlevel : level < e.height := by simpa using hlevel
      omega
  -- the node stands before the new towers, or it is the last of them, or it stands behind
  rcases List.append_eq_append_iff.1 hpl with ⟨mid, rfl, rfl⟩ | ⟨mid, rfl, hmid⟩
  · exact hfront rfl
  · rcases eq_nil_or_snoc mid with rfl | ⟨mid, e, rfl⟩
    · obtain rfl : new ++ after = low := hmid
      simpa using hfront (List.append_nil passed)
    · rw [List.append_assoc, List.singleton_append] at hmid
      simp only [← List.append_assoc, endSlot_append_cons, endValue_append_cons,
        endHeight_append_cons, endSlot_singleton, endValue_singleton, endHeight_singleton]
      rcases List.append_eq_append_iff.1 hmid with ⟨mid', rfl, hafter'⟩ | ⟨mid', hnew', hlow⟩
      · exact hafter _ _ _ hafter'
      · cases mid' with
        | nil => exact hafter [] e low (by simpa using hlow.symm)
        | cons x mid' =>
          obtain ⟨rfl, rfl⟩ := List.cons.inj hlow
          exact hnew _ _ _ hnew'

/-! ## A tower more or less -/

/-- A slot was handed out for a node that has no links yet: it is neither the head's nor a tower's
nor free any more, and no other slot was written to. -/
structure Allocated (s : RankedSet α) (towers : List (Tower α)) (value : α) (height slot : Nat)
    (nodes : Array (Node α)) (free : List Nat) : Prop where
  own : NodeIs nodes slot (some value) height fun _ => ⟨none, 0⟩
  frame : ∀ other, other ≠ slot → nodes[other]? = s.nodes[other]?
  slots : (0 :: (towers.map (·.slot) ++ slot :: free)).Nodup
  free_lt : ∀ f ∈ free, f < nodes.size
  size_nodes : nodes.size = 2 + towers.length + free.length

theorem Allocated.slot_ne_zero {towers : List (Tower α)} {value : α} {height slot : Nat}
    {nodes : Array (Node α)} {free : List Nat}
    (h : Allocated s towers value height slot nodes free) : slot ≠ 0 := fun hzero =>
  (List.nodup_cons.1 h.slots).1 (List.mem_append_right _ (by simp [hzero]))

theorem Allocated.slot_ne {towers : List (Tower α)} {value : α} {height slot : Nat}
    {nodes : Array (Node α)} {free : List Nat}
    (h : Allocated s towers value height slot nodes free) {e : Tower α} (he : e ∈ towers) :
    e.slot ≠ slot :=
  (List.nodup_append.1 (List.nodup_cons.1 h.slots).2).2.2 _ (List.mem_map.2 ⟨e, he, rfl⟩) _
    List.mem_cons_self

/-- The links of a new node. -/
theorem replicate_eq_map_range (height : Nat) (l : Link) :
    List.replicate height l = (List.range height).map fun _ => l := by
  rw [List.map_const', List.length_range]

/-- A free slot is used again. -/
theorem allocated_free {towers : List (Tower α)} (h : Represents s towers) {slot : Nat}
    {free : List Nat} (hfree : s.free = slot :: free) (value : α) (height : Nat) :
    Allocated s towers value height slot
      (s.nodes.setIfInBounds slot ⟨some value, List.replicate height ⟨none, 0⟩⟩) free where
  own := by
    have hlt := h.free_lt slot (by simp [hfree])
    rw [NodeIs, Array.getElem?_setIfInBounds_self_of_lt hlt, replicate_eq_map_range]
  frame other hne := Array.getElem?_setIfInBounds_ne (Ne.symm hne)
  slots := hfree ▸ h.slots
  free_lt f hf := by
    rw [Array.size_setIfInBounds]
    exact h.free_lt f (by simp [hfree, hf])
  size_nodes := by
    have hsize := h.size_nodes
    rw [hfree, List.length_cons] at hsize
    rw [Array.size_setIfInBounds]
    omega

/-- Without free slots the arena grows by one. -/
theorem allocated_push {towers : List (Tower α)} (h : Represents s towers) (hfree : s.free = [])
    (value : α) (height : Nat) :
    Allocated s towers value height s.nodes.size
      (s.nodes.push ⟨some value, List.replicate height ⟨none, 0⟩⟩) [] where
  own := by rw [NodeIs, Array.getElem?_push_size, replicate_eq_map_range]
  frame other hne := by rw [Array.getElem?_push, if_neg hne]
  slots := by
    obtain ⟨hzero, hnodup⟩ := List.nodup_cons.1 h.nodup_slots
    have hsize := h.size_nodes
    refine List.nodup_cons.2 ⟨?_, List.nodup_append.2 ⟨hnodup, by simp, ?_⟩⟩
    · simp only [List.mem_append, List.mem_singleton, not_or]
      exact ⟨hzero, by omega⟩
    · intro a ha b hb
      obtain ⟨e, he, rfl⟩ := List.mem_map.1 ha
      rw [List.mem_singleton.1 hb]
      exact Nat.ne_of_lt (h.slot_lt he)
  free_lt := by simp
  size_nodes := by
    have hsize := h.size_nodes
    rw [hfree] at hsize
    simp only [List.length_nil] at hsize ⊢
    rw [Array.size_push]
    omega

/-- Allocation hands out a slot that was not in use. -/
theorem allocate_spec {towers : List (Tower α)} (h : Represents s towers) (value : α)
    (height : Nat) : ∃ slot nodes free, s.allocate value height = (slot, nodes, free) ∧
      Allocated s towers value height slot nodes free := by
  unfold allocate
  cases hfree : s.free with
  | cons slot free => exact ⟨slot, _, free, rfl, h.allocated_free hfree value height⟩
  | nil => exact ⟨s.nodes.size, _, [], rfl, h.allocated_push hfree value height⟩

/-- With a new tower spliced in at a split, the arena stands for the towers with the new one. -/
theorem represents_insert (h : Represents s (passed ++ rest)) {value : α} {height slot : Nat}
    {nodes nodes' : Array (Node α)} {free : List Nat}
    (ha : Allocated s (passed ++ rest) value height slot nodes free)
    (hs : SplicedIn nodes passed rest ⟨slot, value, height⟩ nodes' levels)
    (hpos : 1 ≤ height) (hle : height ≤ levels) :
    Represents { s with nodes := nodes', free, size := s.size + 1 }
      (passed ++ ⟨slot, value, height⟩ :: rest) where
  node place low hpl := by
    -- the nodes before the split are rerouted to the new tower, which has its own links
    refine node_of_split
      (show Rerouted _ _ _ ([⟨slot, value, height⟩] ++ rest) _ from hs.rerouted)
      (fun e he => (h.height e (by simp [he])).2) ?_ ?_ hpl
    · intro p e q hsplit
      obtain ⟨rfl, rfl, rfl⟩ : p = [] ∧ e = ⟨slot, value, height⟩ ∧ q = [] := by
        cases p with
        | nil => simpa [eq_comm] using hsplit
        | cons x p => simp at hsplit
      exact hs.own.congr fun level hlevel => if_pos (by simp at hlevel; omega)
    · -- the towers behind the split are where they were
      intro p e q hsplit
      have hmem : e ∈ rest := by simp [hsplit]
      have hne : e.slot ≠ slot := ha.slot_ne (by simp [hmem])
      rw [NodeIs, hs.frame _ (h.outside_of_mem hmem) hne, ha.frame _ hne]
      exact h.node_tower (by rw [hsplit, List.append_assoc])
  height e he := by
    rcases List.mem_append.1 he with he | he
    · exact h.height e (by simp [he])
    · rcases List.mem_cons.1 he with rfl | he
      · exact ⟨hpos, hle⟩
      · exact h.height e (by simp [he])
  slots := nodup_slots_iff.2 ha.slots
  free_lt f hf := by
    rw [hs.size_nodes]
    exact ha.free_lt f hf
  size_nodes := by
    rw [hs.size_nodes, ha.size_nodes]
    simp only [List.length_append, List.length_cons]
    omega
  size := by
    show s.size + 1 = _
    rw [h.size]
    simp only [List.length_append, List.length_cons]
    omega

/-- A tower at a split does not share its slot with the others. -/
theorem slot_ne_of_split {e : Tower α} (h : Represents s (passed ++ e :: rest)) {x : Tower α}
    (hx : x ∈ passed ++ rest) : x.slot ≠ e.slot :=
  (List.nodup_append.1 (List.nodup_cons.1 (nodup_slots_iff.1 h.slots)).2).2.2 _
    (List.mem_map.2 ⟨x, hx, rfl⟩) _ List.mem_cons_self

/-- With a tower spliced out and its slot vacated, the arena stands for the other towers. -/
theorem represents_remove {e : Tower α} (h : Represents s (passed ++ e :: rest))
    {nodes : Array (Node α)} (hs : SplicedOut s.nodes passed rest e nodes levels) :
    Represents { s with
      nodes := nodes.setIfInBounds e.slot ⟨none, []⟩, free := e.slot :: s.free,
      size := (passed ++ rest).length } (passed ++ rest) where
  node place low hpl := by
    have hkept : ∀ {slot : Nat}, slot ≠ e.slot →
        (nodes.setIfInBounds e.slot ⟨none, []⟩)[slot]? = nodes[slot]? := fun hslot =>
      Array.getElem?_setIfInBounds_ne (Ne.symm hslot)
    refine node_of_split (show Rerouted _ _ (e :: rest) ([] ++ rest) _ from
        hs.rerouted.congr fun place low hpl => hkept (h.outside_of_mem (by simp) place low hpl))
      (fun x hx => (h.height x (by simp [hx])).2) (fun p x q hsplit => by simp at hsplit) ?_ hpl
    -- the towers behind the split are where they were
    intro p x q hsplit
    have hmem : x ∈ rest := by simp [hsplit]
    rw [NodeIs, hkept (h.slot_ne_of_split (by simp [hmem])),
      hs.frame _ (h.outside_of_mem (by simp [hmem]))]
    exact h.node_tower (show (passed ++ e :: p) ++ x :: q = _ by simp [hsplit])
  height x hx := by
    rcases List.mem_append.1 hx with hx | hx
    · exact h.height x (by simp [hx])
    · exact h.height x (by simp [hx])
  slots := nodup_slots_iff.1 h.slots
  free_lt f hf := by
    rw [Array.size_setIfInBounds, hs.size_nodes]
    rcases List.mem_cons.1 hf with rfl | hf
    · exact h.slot_lt (by simp)
    · exact h.free_lt f hf
  size_nodes := by
    have hsize := h.size_nodes
    simp only [Array.size_setIfInBounds, hs.size_nodes, List.length_append, List.length_cons]
      at hsize ⊢
    omega
  size := rfl

/-- Among the places of the levels the lowest is the split itself. -/
theorem head?_places (h : Represents s (passed ++ rest)) :
    (places passed levels).head? = some (endSlot passed, passed.length) := by
  have hheights : ∀ e ∈ passed, 1 ≤ e.height := fun e he => (h.height e (by simp [he])).1
  show some (endSlot (upTo 0 passed), (upTo 0 passed).length) = _
  rw [upTo_zero hheights]

/-! ## Insertion -/

variable [Ord α]

/-- **Inserting adds a tower where the value belongs.** -/
theorem insertWith?_eq (h : Represents s (passed ++ rest)) {value : α} {height : Nat}
    (hpassed : ∀ e ∈ passed, compare e.value value ≠ .gt)
    (hrest : ∀ e ∈ rest, compare e.value value = .gt) (hpos : 1 ≤ height)
    (hle : height ≤ levels) :
    ∃ s' slot, s.insertWith? value height = some s' ∧
      Represents s' (passed ++ ⟨slot, value, height⟩ :: rest) := by
  obtain ⟨slot, nodes, free, halloc, ha⟩ := h.allocate_spec value height
  have hpred : s.predecessors? (fun v => compare v value != .gt) =
      some (places passed levels) :=
    h.predecessors?_eq rfl (fun e he => by simpa using hpassed e he) fun e he => by
      simpa using hrest e he
  have hout : Outside passed slot :=
    outside_of_ne ha.slot_ne_zero fun e he => ha.slot_ne (List.mem_append_left _ he)
  have hstart : SplicedIn nodes passed rest ⟨slot, value, height⟩ nodes 0 :=
    ⟨(h.rerouted _).congr fun place low hpl => ha.frame _ (hout place low hpl),
      by simpa [NodeIs] using ha.own, rfl, fun _ _ _ => rfl⟩
  obtain ⟨nodes', hgo, hs⟩ := spliceIn?_eq hstart (Nat.zero_le _) h.distinctSlots hout
  refine ⟨_, slot, ?_, h.represents_insert ha hs hpos hle⟩
  simp only [insertWith?, hpred, h.head?_places, halloc, Option.bind_eq_bind, Option.bind_some]
  rw [show spliceIn? slot height passed.length 0 (places passed levels) nodes = some nodes'
    from hgo]
  rfl

/-! ## Removal -/

/-- What a search for a value comes to: the first tower that is not below it. -/
theorem next_of_search (h : Represents s (passed ++ rest)) {value : α}
    (hpassed : ∀ e ∈ passed, compare e.value value = .lt)
    (hrest : ∀ e ∈ rest, compare e.value value ≠ .lt) :
    s.predecessors? (fun v => compare v value == .lt) = some (places passed levels) ∧
      s.link? (endSlot passed) 0 = some (linkTo 0 rest) :=
  ⟨h.predecessors?_eq rfl (fun e he => by simpa using hpassed e he) fun e he => by
    simpa using hrest e he, h.link?_place rfl (h.endHeight_pos rfl)⟩

/-- Removing a value that does not occur changes nothing. -/
theorem remove?_eq_false (h : Represents s (passed ++ rest)) {value : α}
    (hpassed : ∀ e ∈ passed, compare e.value value = .lt)
    (hrest : ∀ e ∈ rest, compare e.value value = .gt) :
    s.remove? value = some (false, s) := by
  obtain ⟨hpred, hlink⟩ := h.next_of_search hpassed fun e he => by simp [hrest e he]
  simp only [remove?, hpred, h.head?_places, hlink, Option.bind_eq_bind, Option.bind_some]
  cases rest with
  | nil => rfl
  | cons e rest =>
    have hheight := (h.height e (by simp)).1
    have hvalue := h.value?_tower (Eq.refl (passed ++ e :: rest))
    rw [linkTo, if_pos (by omega)]
    simp [hvalue, hrest e (by simp)]

/-- **Removing takes the first tower that is equal to the value away.** -/
theorem remove?_eq_true {e : Tower α} (h : Represents s (passed ++ e :: rest)) {value : α}
    (hpassed : ∀ e ∈ passed, compare e.value value = .lt)
    (hrest : ∀ e ∈ rest, compare e.value value ≠ .lt) (he : compare e.value value = .eq) :
    ∃ s', s.remove? value = some (true, s') ∧ Represents s' (passed ++ rest) := by
  -- the search ends in front of the element, whose links are then taken over by the places before
  -- it
  obtain ⟨hpred, hlink⟩ := h.next_of_search hpassed fun x hx => by
    rcases List.mem_cons.1 hx with rfl | hx
    · simp [he]
    · exact hrest x hx
  have hheight := (h.height e (by simp)).1
  have hvalue := h.value?_tower (Eq.refl (passed ++ e :: rest))
  have hsize : s.size = (passed ++ rest).length + 1 := by
    rw [h.size]
    simp only [List.length_append, List.length_cons]
    omega
  obtain ⟨nodes, hgo, hs⟩ := spliceOut?_eq ⟨h.rerouted rest, rfl, fun _ _ => rfl⟩ (Nat.zero_le _)
    h.distinctSlots (h.outside_of_mem (by simp))
    (fun x hx => h.slot_ne_of_split (List.mem_append_right _ hx)) (h.node_tower rfl)
  refine ⟨_, ?_, h.represents_remove hs⟩
  simp only [remove?, hpred, h.head?_places, hlink, Option.bind_eq_bind, Option.bind_some, linkTo,
    if_pos (show 0 < e.height by omega), hvalue, he]
  rw [show spliceOut? e.slot 0 (places passed levels) s.nodes = some nodes from hgo,
    sub?_of_le (by omega), hsize]
  rfl

end Represents

end RecordLayer.RankedSet
