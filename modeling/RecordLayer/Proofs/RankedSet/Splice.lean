import RecordLayer.Proofs.RankedSet.Arena

/-!
# Splicing nodes in and out

Inserting a tower and removing one reroute the last place of each level in front of it. The steps
that the operations write as partial all succeed on a well-formed arena: the links exist, and no
distance is shortened below zero. Nodes behind the tower keep their slots untouched.
-/

namespace RecordLayer.RankedSet

variable {α : Type}

/-- The slot is not one of a place within the towers. -/
def Outside (towers : List (Tower α)) (slot : Nat) : Prop :=
  ∀ place low, place ++ low = towers → endSlot place ≠ slot

theorem size_setLink (nodes : Array (Node α)) (slot level : Nat) (l : Link) :
    (setLink nodes slot level l).size = nodes.size := by
  rw [setLink, Array.size_modify]

theorem getElem?_setLink_of_ne {nodes : Array (Node α)} {slot other : Nat} (h : slot ≠ other)
    (level : Nat) (l : Link) : (setLink nodes slot level l)[other]? = nodes[other]? := by
  rw [setLink, Array.getElem?_modify, if_neg h]

theorem sub?_of_le {a b : Nat} (h : b ≤ a) : sub? a b = some (a - b) := if_pos h

/-- The node that a level reroutes, with its link before. -/
theorem Rerouted.link {nodes : Array (Node α)} {passed before after : List (Tower α)} {level : Nat}
    (h : Rerouted nodes passed before after level) (hlevel : level < levels) :
    ∃ node low, nodes[endSlot (upTo level passed)]? = some node ∧
      passed = upTo level passed ++ low ∧ (∀ e ∈ low, e.height ≤ level) ∧
      node.links[level]? = some (linkTo level (low ++ before)) := by
  obtain ⟨low, hsplit, hlow, hreach⟩ := upTo_spec hlevel passed
  refine ⟨_, low, h _ low hsplit.symm, hsplit, hlow, ?_⟩
  simp [hreach]

/-- The places that are still to be rerouted from a level on. -/
theorem drop_places (towers : List (Tower α)) {level : Nat} (h : level < levels) :
    (places towers levels).drop level =
      (endSlot (upTo level towers), (upTo level towers).length) ::
        (places towers levels).drop (level + 1) := by
  rw [List.drop_eq_getElem_cons (by simpa [places] using h)]
  simp [places]

/-- No place is left above the highest level. -/
theorem drop_places_levels (towers : List (Tower α)) : (places towers levels).drop levels = [] :=
  List.drop_of_length_le (by simp [places])

/-- Only towers have links to their slots. -/
theorem linkTo_target_ne {rest : List (Tower α)} {slot : Nat} (h : ∀ x ∈ rest, x.slot ≠ slot)
    (level : Nat) : (linkTo level rest).target ≠ some slot := by
  rcases low_or_first level rest with hnone | ⟨low, x, later, rfl, hlow, hx⟩
  · rw [← List.append_nil rest, linkTo_append_low hnone]
    simp [linkTo]
  · rw [linkTo_append_reaching hlow hx]
    exact fun heq => h x (by simp) (Option.some.inj heq)

variable {original nodes : Array (Node α)} {passed rest : List (Tower α)} {e : Tower α}
    {level : Nat}

/-! ## In -/

/-- The tower `e` is spliced in below a level: the places before it link to it there, it has its own
links there, and apart from these nothing was written. -/
structure SplicedIn (original : Array (Node α)) (passed rest : List (Tower α)) (e : Tower α)
    (nodes : Array (Node α)) (level : Nat) : Prop where
  rerouted : Rerouted nodes passed rest (e :: rest) level
  own : NodeIs nodes e.slot (some e.value) e.height fun i =>
    if i < level then linkTo i rest else ⟨none, 0⟩
  size_nodes : nodes.size = original.size
  frame : ∀ slot, Outside passed slot → slot ≠ e.slot → nodes[slot]? = original[slot]?

/-- One level more is spliced in: the tower takes over the link of the last place that reaches the
level, if it reaches it itself, and is jumped over otherwise. -/
theorem SplicedIn.step (h : SplicedIn original passed rest e nodes level) (hlevel : level < levels)
    (hd : DistinctSlots passed) (he : Outside passed e.slot) :
    ∃ nodes', spliceIn? e.slot e.height passed.length level
        ((places passed levels).drop level) nodes =
      spliceIn? e.slot e.height passed.length (level + 1)
        ((places passed levels).drop (level + 1)) nodes' ∧
      SplicedIn original passed rest e nodes' (level + 1) := by
  obtain ⟨node, low, hnode, hsplit, hlow, hlink⟩ := h.rerouted.link hlevel
  have hplace : upTo level passed ++ low = passed := hsplit.symm
  have hlen : passed.length = (upTo level passed).length + low.length := by
    rw [← List.length_append, hplace]
  have hne := he _ low hplace
  rw [drop_places passed hlevel, spliceIn?]
  simp only [hnode, hlink, linkTo_append_low hlow, Option.bind_eq_bind, Option.bind_some]
  by_cases hh : level < e.height
  · have hnew : nodes[e.slot]? = some ⟨some e.value, (List.range e.height).map fun i =>
        if i < level then linkTo i rest else ⟨none, 0⟩⟩ := h.own
    -- neither distance is shortened below zero: the place is not behind the tower
    rw [if_pos hh, hnew, sub?_of_le (by omega), sub?_of_le (by omega)]
    simp only [Option.bind_some, List.getElem?_map, List.getElem?_range hh, Option.map_some]
    have hafter : low.length + (linkTo level rest).span + (upTo level passed).length -
        passed.length = (linkTo level rest).span := by omega
    rw [hafter]
    have hrerouted : Rerouted (setLink nodes e.slot level (linkTo level rest)) passed rest
        (e :: rest) level := h.rerouted.congr fun place low' hpl =>
      getElem?_setLink_of_ne (he place low' hpl).symm level _
    refine ⟨_, rfl, hrerouted.step hlevel hd hsplit ?_, ?_, ?_, fun slot hslot hs => ?_⟩
    · rw [linkTo_append_reaching hlow hh, hlen]
      simp only [Link.mk.injEq, true_and]
      omega
    · refine
        ((h.own.setLink level (linkTo level rest)).setLink_of_ne hne level _).congr fun i _ => ?_
      by_cases hi : i = level
      · rw [if_pos hi, if_pos (by omega), hi]
      · by_cases hi' : i < level
        · rw [if_neg hi, if_pos hi', if_pos (by omega)]
        · rw [if_neg hi, if_neg hi', if_neg (by omega)]
    · rw [size_setLink, size_setLink, h.size_nodes]
    · rw [getElem?_setLink_of_ne (hslot _ low hplace), getElem?_setLink_of_ne hs.symm,
        h.frame slot hslot hs]
  · rw [if_neg hh]
    refine ⟨_, rfl, h.rerouted.step hlevel hd hsplit ?_, ?_, ?_, fun slot hslot hs => ?_⟩
    · rw [linkTo_append_low hlow, linkTo, if_neg hh]
      rfl
    · refine (h.own.setLink_of_ne hne level _).congr fun i hi => ?_
      by_cases hi' : i < level
      · rw [if_pos hi', if_pos (by omega)]
      · rw [if_neg hi', if_neg (by omega)]
    · rw [size_setLink, h.size_nodes]
    · rw [getElem?_setLink_of_ne (hslot _ low hplace), h.frame slot hslot hs]

/-- Splicing in reroutes every level to the new tower, and gives the tower its own links. -/
theorem spliceIn?_eq {nodes : Array (Node α)} {level : Nat}
    (h : SplicedIn original passed rest e nodes level) (hlevel : level ≤ levels)
    (hd : DistinctSlots passed) (he : Outside passed e.slot) :
    ∃ nodes', spliceIn? e.slot e.height passed.length level
        ((places passed levels).drop level) nodes = some nodes' ∧
      SplicedIn original passed rest e nodes' levels := by
  by_cases hlt : level < levels
  · obtain ⟨next, hstep, hnext⟩ := h.step hlt hd he
    rw [hstep]
    exact spliceIn?_eq hnext hlt hd he
  · obtain rfl : level = levels := Nat.le_antisymm hlevel (Nat.not_lt.1 hlt)
    rw [drop_places_levels, spliceIn?]
    exact ⟨nodes, rfl, h⟩
termination_by levels - level

/-! ## Out -/

/-- The tower `e` is spliced out below a level: the places before it link past it there, and apart
from these nothing was written. -/
structure SplicedOut (original : Array (Node α)) (passed rest : List (Tower α)) (e : Tower α)
    (nodes : Array (Node α)) (level : Nat) : Prop where
  rerouted : Rerouted nodes passed (e :: rest) rest level
  size_nodes : nodes.size = original.size
  frame : ∀ slot, Outside passed slot → nodes[slot]? = original[slot]?

/-- One level more is spliced out: the last place that reaches the level takes over the link of the
tower, or jumps over one tower less. -/
theorem SplicedOut.step (h : SplicedOut original passed rest e nodes level)
    (hlevel : level < levels) (hd : DistinctSlots passed) (he : Outside passed e.slot)
    (hrest : ∀ x ∈ rest, x.slot ≠ e.slot)
    (hown : NodeIs original e.slot (some e.value) e.height (linkTo · rest)) :
    ∃ nodes', spliceOut? e.slot level ((places passed levels).drop level) nodes =
      spliceOut? e.slot (level + 1) ((places passed levels).drop (level + 1)) nodes' ∧
      SplicedOut original passed rest e nodes' (level + 1) := by
  obtain ⟨node, low, hnode, hsplit, hlow, hlink⟩ := h.rerouted.link hlevel
  have hwritten : ∀ {link : Link}, link = linkTo level (low ++ rest) →
      SplicedOut original passed rest e
        (setLink nodes (endSlot (upTo level passed)) level link) (level + 1) := fun heq =>
    ⟨h.rerouted.step hlevel hd hsplit heq, (size_setLink ..).trans h.size_nodes, fun slot hslot =>
      (getElem?_setLink_of_ne (hslot _ low hsplit.symm) ..).trans (h.frame slot hslot)⟩
  rw [drop_places passed hlevel, spliceOut?]
  simp only [hnode, hlink, linkTo_append_low hlow, linkTo, Option.bind_eq_bind, Option.bind_some]
  by_cases hh : level < e.height
  · have hremoved : nodes[e.slot]? =
        some ⟨some e.value, (List.range e.height).map (linkTo · rest)⟩ :=
      (h.frame _ he).trans hown
    simp only [if_pos hh, if_true, hremoved, Option.bind_some, List.getElem?_map,
      List.getElem?_range hh, Option.map_some]
    rw [sub?_of_le (by omega), Option.bind_some]
    refine ⟨_, rfl, hwritten ?_⟩
    rw [linkTo_append_low hlow]
    simp only [Link.mk.injEq, true_and]
    omega
  · simp only [if_neg hh, if_neg (linkTo_target_ne hrest level)]
    rw [sub?_of_le (by omega), Option.bind_some]
    refine ⟨_, rfl, hwritten ?_⟩
    rw [linkTo_append_low hlow]
    simp only [Link.mk.injEq, true_and]
    omega

/-- Splicing out reroutes every level past the tower. -/
theorem spliceOut?_eq {nodes : Array (Node α)} {level : Nat}
    (h : SplicedOut original passed rest e nodes level) (hlevel : level ≤ levels)
    (hd : DistinctSlots passed) (he : Outside passed e.slot) (hrest : ∀ x ∈ rest, x.slot ≠ e.slot)
    (hown : NodeIs original e.slot (some e.value) e.height (linkTo · rest)) :
    ∃ nodes', spliceOut? e.slot level ((places passed levels).drop level) nodes = some nodes' ∧
      SplicedOut original passed rest e nodes' levels := by
  by_cases hlt : level < levels
  · obtain ⟨next, hstep, hnext⟩ := h.step hlt hd he hrest hown
    rw [hstep]
    exact spliceOut?_eq hnext hlt hd he hrest hown
  · obtain rfl : level = levels := Nat.le_antisymm hlevel (Nat.not_lt.1 hlt)
    rw [drop_places_levels, spliceOut?]
    exact ⟨nodes, rfl, h⟩
termination_by levels - level

end RecordLayer.RankedSet
