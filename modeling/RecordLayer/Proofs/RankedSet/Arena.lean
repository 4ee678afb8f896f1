import RecordLayer.RankedSet

/-!
# The arena of a ranked set

A ranked set stands for a list of towers: its elements in order, each with the slot that it occupies
and the number of levels it reaches. The arena is well formed if every link is the one that this
list prescribes: at a level, a node links to the next tower that reaches the level, across the
distance to it, and to nothing, across the distance to the end, if there is none.

* A place is a first part of the list; the node there is the last tower of that part, or the head.
* A walk along a level comes to the last tower that reaches the level within the elements it may
  pass, and a descent through the levels comes to one such place a level.
* Rerouting the links of those places, one level after the other, turns the list that follows them
  into another one. Splicing in and splicing out are both such reroutings.
-/

namespace RecordLayer.RankedSet

/-- An element in its place: the slot that holds it and how many levels it reaches. -/
structure Tower (α : Type) where
  slot : Nat
  value : α
  height : Nat

variable {α : Type}

/-! ## Prescribed links -/

/-- The link at a level of a node that is followed by towers. -/
def linkTo (level : Nat) : List (Tower α) → Link
  | [] => ⟨none, 0⟩
  | e :: rest =>
    if level < e.height then ⟨some e.slot, 1⟩
    else ⟨(linkTo level rest).target, (linkTo level rest).span + 1⟩

/-- Towers that do not reach the level only add to the distance. -/
theorem linkTo_append_low {level : Nat} {low : List (Tower α)} (h : ∀ e ∈ low, e.height ≤ level)
    (rest : List (Tower α)) :
    linkTo level (low ++ rest) =
      ⟨(linkTo level rest).target, low.length + (linkTo level rest).span⟩ := by
  induction low with
  | nil => simp
  | cons e low ih =>
    have he : ¬level < e.height := Nat.not_lt.2 (h e (by simp))
    rw [List.cons_append, linkTo, if_neg he, ih fun x hx => h x (List.mem_cons_of_mem _ hx)]
    simp only [List.length_cons, Link.mk.injEq, true_and]
    omega

/-- The link stops at the first tower that reaches the level. -/
theorem linkTo_append_reaching {level : Nat} {low : List (Tower α)} {e : Tower α}
    (h : ∀ e ∈ low, e.height ≤ level) (he : level < e.height) (rest : List (Tower α)) :
    linkTo level (low ++ e :: rest) = ⟨some e.slot, low.length + 1⟩ := by
  rw [linkTo_append_low h, linkTo, if_pos he]

/-- Either no tower reaches the level, or there is a first one. -/
theorem low_or_first (level : Nat) (towers : List (Tower α)) :
    (∀ e ∈ towers, e.height ≤ level) ∨
      ∃ low e rest,
        towers = low ++ e :: rest ∧ (∀ x ∈ low, x.height ≤ level) ∧ level < e.height := by
  induction towers with
  | nil => exact .inl (by simp)
  | cons e towers ih =>
    by_cases he : level < e.height
    · exact .inr ⟨[], e, towers, rfl, by simp, he⟩
    · rcases ih with hlow | ⟨low, x, rest, rfl, hlow, hx⟩
      · exact .inl (by simpa [Nat.not_lt.1 he] using hlow)
      · exact .inr ⟨e :: low, x, rest, rfl, by simpa [Nat.not_lt.1 he] using hlow, hx⟩

/-- Behind a tower that reaches the level, nothing matters to the link. -/
theorem linkTo_append_congr {level : Nat} {towers : List (Tower α)}
    (h : ∃ e ∈ towers, level < e.height) (xs ys : List (Tower α)) :
    linkTo level (towers ++ xs) = linkTo level (towers ++ ys) := by
  rcases low_or_first level towers with hlow | ⟨low, e, rest, rfl, hlow, he⟩
  · obtain ⟨e, hmem, he⟩ := h
    exact absurd (hlow e hmem) (Nat.not_le.2 he)
  · rw [List.append_assoc, List.append_assoc, List.cons_append, List.cons_append,
      linkTo_append_reaching hlow he, linkTo_append_reaching hlow he]

/-! ## Places -/

/-- The slot of a place. -/
def endSlot (place : List (Tower α)) : Nat := (place.getLast?.map (·.slot)).getD 0

/-- How many levels the node of a place has. -/
def endHeight (place : List (Tower α)) : Nat := (place.getLast?.map (·.height)).getD levels

/-- The value of the node of a place. -/
def endValue (place : List (Tower α)) : Option α := place.getLast?.map (·.value)

@[simp] theorem endSlot_nil : endSlot ([] : List (Tower α)) = 0 := rfl

@[simp] theorem endHeight_nil : endHeight ([] : List (Tower α)) = levels := rfl

@[simp] theorem endValue_nil : endValue ([] : List (Tower α)) = none := rfl

@[simp] theorem endSlot_append_cons (p q : List (Tower α)) (e : Tower α) :
    endSlot (p ++ e :: q) = endSlot (e :: q) := by
  simp [endSlot, List.getLast?_append, List.getLast?_cons]

@[simp] theorem endHeight_append_cons (p q : List (Tower α)) (e : Tower α) :
    endHeight (p ++ e :: q) = endHeight (e :: q) := by
  simp [endHeight, List.getLast?_append, List.getLast?_cons]

@[simp] theorem endValue_append_cons (p q : List (Tower α)) (e : Tower α) :
    endValue (p ++ e :: q) = endValue (e :: q) := by
  simp [endValue, List.getLast?_append, List.getLast?_cons]

@[simp] theorem endSlot_append_snoc (p q : List (Tower α)) (e : Tower α) :
    endSlot (p ++ (q ++ [e])) = e.slot := by
  rw [← List.append_assoc, endSlot_append_cons]
  rfl

@[simp] theorem endHeight_append_snoc (p q : List (Tower α)) (e : Tower α) :
    endHeight (p ++ (q ++ [e])) = e.height := by
  rw [← List.append_assoc, endHeight_append_cons]
  rfl

@[simp] theorem endValue_append_snoc (p q : List (Tower α)) (e : Tower α) :
    endValue (p ++ (q ++ [e])) = some e.value := by
  rw [← List.append_assoc, endValue_append_cons]
  rfl

@[simp] theorem endSlot_cons_snoc (q : List (Tower α)) (e x : Tower α) :
    endSlot (x :: (q ++ [e])) = e.slot := endSlot_append_snoc [x] q e

@[simp] theorem endHeight_cons_snoc (q : List (Tower α)) (e x : Tower α) :
    endHeight (x :: (q ++ [e])) = e.height := endHeight_append_snoc [x] q e

@[simp] theorem endValue_cons_snoc (q : List (Tower α)) (e x : Tower α) :
    endValue (x :: (q ++ [e])) = some e.value := endValue_append_snoc [x] q e

@[simp] theorem endSlot_singleton (e : Tower α) : endSlot [e] = e.slot := rfl

@[simp] theorem endHeight_singleton (e : Tower α) : endHeight [e] = e.height := rfl

@[simp] theorem endValue_singleton (e : Tower α) : endValue [e] = some e.value := rfl

theorem eq_nil_or_snoc (place : List (Tower α)) : place = [] ∨ ∃ p e, place = p ++ [e] := by
  simpa only [List.concat_eq_append] using List.eq_nil_or_concat place

/-- The longest first part that ends in a tower that reaches the level. -/
def upTo (level : Nat) (towers : List (Tower α)) : List (Tower α) :=
  (towers.reverse.dropWhile (·.height ≤ level)).reverse

/-- What `upTo` leaves out does not reach the level, and the place where it ends does. -/
theorem upTo_spec {level : Nat} (hlevel : level < levels) (towers : List (Tower α)) :
    ∃ low, towers = upTo level towers ++ low ∧ (∀ e ∈ low, e.height ≤ level) ∧
      level < endHeight (upTo level towers) := by
  refine ⟨(towers.reverse.takeWhile (·.height ≤ level)).reverse, ?_, ?_, ?_⟩
  · rw [upTo, ← List.reverse_append, List.takeWhile_append_dropWhile, List.reverse_reverse]
  · intro e he
    have hall := List.all_takeWhile (p := fun e : Tower α => decide (e.height ≤ level))
      (l := towers.reverse)
    simpa using List.all_eq_true.1 hall e (List.mem_reverse.1 he)
  · rw [endHeight, upTo, List.getLast?_reverse]
    have hhead := List.head?_dropWhile_not (fun e : Tower α => decide (e.height ≤ level))
      towers.reverse
    cases hd : (towers.reverse.dropWhile fun e => decide (e.height ≤ level)).head? with
    | none => exact hlevel
    | some e =>
      rw [hd] at hhead
      simpa using hhead

theorem upTo_eq {level : Nat} {place low : List (Tower α)} (hlow : ∀ e ∈ low, e.height ≤ level)
    (hreach : level < endHeight place) : upTo level (place ++ low) = place := by
  rw [upTo, List.reverse_append, List.dropWhile_append_of_pos (by simpa using hlow)]
  rcases eq_nil_or_snoc place with rfl | ⟨p, e, rfl⟩
  · rfl
  · have he : level < e.height := by simpa using hreach
    rw [List.reverse_append, List.reverse_singleton, List.singleton_append,
      List.dropWhile_cons_of_neg (by simpa using he)]
    simp

/-- Every tower reaches the lowest level. -/
theorem upTo_zero {towers : List (Tower α)} (h : ∀ e ∈ towers, 1 ≤ e.height) :
    upTo 0 towers = towers := by
  have hreach : 0 < endHeight towers := by
    rcases eq_nil_or_snoc towers with rfl | ⟨p, e, rfl⟩
    · exact Nat.zero_lt_succ _
    · simpa using Nat.lt_of_succ_le (h e (by simp))
  simpa using upTo_eq (List.forall_mem_nil _) hreach

/-- Where the walks of a descent end, the lowest level first. -/
def places (towers : List (Tower α)) (n : Nat) : List (Nat × Nat) :=
  (List.range n).map fun level => (endSlot (upTo level towers), (upTo level towers).length)

theorem places_succ (towers : List (Tower α)) (n : Nat) :
    places towers (n + 1) =
      places towers n ++ [(endSlot (upTo n towers), (upTo n towers).length)] := by
  simp [places, List.range_succ]

/-! ## Well-formed arenas -/

/-- The arena holds a node with a value and given links in a slot. -/
def NodeIs (nodes : Array (Node α)) (slot : Nat) (value : Option α) (height : Nat)
    (link : Nat → Link) : Prop :=
  nodes[slot]? = some ⟨value, (List.range height).map link⟩

/-- The ranked set stands for a list of towers. -/
structure Represents (s : RankedSet α) (towers : List (Tower α)) : Prop where
  /-- Every node has the links that the towers behind it prescribe. -/
  node : ∀ place rest, place ++ rest = towers →
    NodeIs s.nodes (endSlot place) (endValue place) (endHeight place) (linkTo · rest)
  height : ∀ e ∈ towers, 1 ≤ e.height ∧ e.height ≤ levels
  /-- The head, the towers and the free slots do not share slots. -/
  slots : (0 :: (towers.map (·.slot) ++ s.free)).Nodup
  /-- Every slot is the head's, a tower's or free. -/
  free_lt : ∀ slot ∈ s.free, slot < s.nodes.size
  size_nodes : s.nodes.size = 1 + towers.length + s.free.length
  size : s.size = towers.length

theorem NodeIs.link? {s : RankedSet α} {slot height level : Nat} {value : Option α}
    {link : Nat → Link} (h : NodeIs s.nodes slot value height link) (hl : level < height) :
    s.link? slot level = some (link level) := by
  rw [NodeIs] at h
  simp [RankedSet.link?, h, hl]

theorem NodeIs.value? {s : RankedSet α} {slot height : Nat} {value : Option α}
    {link : Nat → Link} (h : NodeIs s.nodes slot value height link) : s.value? slot = value := by
  rw [NodeIs] at h
  simp [RankedSet.value?, h]

theorem represents_empty (heights : Heights) : Represents (.empty heights : RankedSet α) [] where
  node place rest h := by
    obtain ⟨rfl, rfl⟩ := List.append_eq_nil_iff.1 h
    rfl
  height := by simp
  slots := by simp [empty]
  free_lt := by simp [empty]
  size_nodes := rfl
  size := rfl

namespace Represents

variable {s : RankedSet α} {towers : List (Tower α)}

/-- The node of a tower links to the towers behind it. -/
theorem node_tower (h : Represents s towers) {place rest : List (Tower α)} {e : Tower α}
    (ht : place ++ e :: rest = towers) :
    NodeIs s.nodes e.slot (some e.value) e.height (linkTo · rest) := by
  simpa using h.node (place ++ [e]) rest (by simpa using ht)

/-- The value of a tower is found in its slot. -/
theorem value?_tower (h : Represents s towers) {place rest : List (Tower α)} {e : Tower α}
    (ht : place ++ e :: rest = towers) : s.value? e.slot = some e.value :=
  (h.node_tower ht).value?

theorem slot_lt (h : Represents s towers) {e : Tower α} (he : e ∈ towers) :
    e.slot < s.nodes.size := by
  obtain ⟨place, rest, ht⟩ := List.append_of_mem he
  exact (Array.getElem?_eq_some_iff.1 (h.node_tower ht.symm)).1

/-- The slots in the order of the places: the head's, and then those of the towers. -/
theorem getElem?_endSlot {place rest : List (Tower α)} (ht : place ++ rest = towers) :
    (0 :: towers.map (·.slot))[place.length]? = some (endSlot place) := by
  subst ht
  rcases eq_nil_or_snoc place with rfl | ⟨p, e, rfl⟩
  · rfl
  · simp

theorem nodup_slots (h : Represents s towers) : (0 :: towers.map (·.slot)).Nodup := by
  have := h.slots
  rw [← List.cons_append] at this
  exact (List.nodup_append.1 this).1

/-- Different places have different slots. -/
theorem endSlot_inj (h : Represents s towers) {p q p' q' : List (Tower α)}
    (hp : p ++ q = towers) (hp' : p' ++ q' = towers) (heq : endSlot p = endSlot p') : p = p' := by
  have hlen : p.length = p'.length := by
    have hi := getElem?_endSlot hp
    have hi' := getElem?_endSlot hp'
    rw [heq, ← hi'] at hi
    refine (List.getElem?_inj ?_ h.nodup_slots).1 hi
    have := congrArg List.length hp
    simp at this ⊢
    omega
  exact (List.append_inj (hp.trans hp'.symm) hlen).1

/-- Every place has a link on the lowest level. -/
theorem endHeight_pos (h : Represents s towers) {place rest : List (Tower α)}
    (ht : place ++ rest = towers) : 0 < endHeight place := by
  rcases eq_nil_or_snoc place with rfl | ⟨p, e, rfl⟩
  · exact Nat.zero_lt_succ _
  · simpa using Nat.lt_of_succ_le (h.height e (by simp [← ht])).1

/-- A low place has a link past the towers that do not reach the level. -/
theorem link?_place (h : Represents s towers) {place rest : List (Tower α)} {level : Nat}
    (ht : place ++ rest = towers) (hl : level < endHeight place) :
    s.link? (endSlot place) level = some (linkTo level rest) :=
  (h.node place rest ht).link? hl

/-! ## Walks -/

/-- A walk comes to the last tower that reaches the level among those that may be passed. -/
theorem walk?_eq (h : Represents s towers) {before : α → Bool} {passed rest : List (Tower α)}
    (ht : passed ++ rest = towers) (hpassed : ∀ e ∈ passed, before e.value = true)
    (hrest : ∀ e ∈ rest, before e.value = false) {level : Nat} :
    ∀ (fuel : Nat) (place low : List (Tower α)), place ++ low = passed →
      level < endHeight place → low.length ≤ fuel →
      s.walk? before level fuel (endSlot place, place.length) =
        some (endSlot (upTo level passed), (upTo level passed).length)
  | 0, place, low, hpl, hl, hfuel => by
    have hlow : low = [] := List.eq_nil_of_length_eq_zero (Nat.le_zero.1 hfuel)
    subst hlow hpl
    rw [upTo_eq (by simp) hl, walk?]
  | fuel + 1, place, low, hpl, hl, hfuel => by
    have hlink := h.link?_place
      (show place ++ (low ++ rest) = towers by rw [← List.append_assoc, hpl, ht]) hl
    rcases low_or_first level low with hlow | ⟨low, e, later, rfl, hlow, he⟩
    · -- nothing that may be passed reaches the level, so the walk ends here
      have hstop : ∀ next, (linkTo level rest).target = some next →
          ∃ value, s.value? next = some value ∧ before value = false := by
        intro next hnext
        rcases low_or_first level rest with hnone | ⟨low', x, later, rfl, hlow', hx⟩
        · rw [← List.append_nil rest, linkTo_append_low hnone] at hnext
          cases hnext
        · rw [linkTo_append_reaching hlow' hx] at hnext
          cases hnext
          exact ⟨x.value, h.value?_tower (List.append_assoc passed low' _ ▸ ht), hrest x (by simp)⟩
      rw [← hpl, upTo_eq hlow hl, walk?]
      simp only [hlink, linkTo_append_low hlow, Option.bind_eq_bind, Option.bind_some]
      cases htarget : (linkTo level rest).target with
      | none => rfl
      | some next =>
        obtain ⟨value, hvalue, hbefore⟩ := hstop next htarget
        simp [hvalue, hbefore]
    · have hvalue := h.value?_tower
        (show (place ++ low) ++ e :: (later ++ rest) = towers by rw [← ht, ← hpl]; simp)
      have hgo := walk?_eq h ht hpassed hrest fuel (place ++ low ++ [e]) later
        (by rw [← hpl]; simp) (by simpa using he) (by simp at hfuel; omega)
      rw [walk?]
      simp only [hlink, List.append_assoc, List.cons_append, linkTo_append_reaching hlow he,
        Option.bind_eq_bind, Option.bind_some, hvalue, hpassed e (by simp [← hpl]), if_true]
      simpa [Nat.add_assoc] using hgo

theorem descend?_eq (h : Represents s towers) {before : α → Bool} {passed rest : List (Tower α)}
    (ht : passed ++ rest = towers) (hpassed : ∀ e ∈ passed, before e.value = true)
    (hrest : ∀ e ∈ rest, before e.value = false) :
    ∀ (n : Nat) (place low : List (Tower α)) (ends : List (Nat × Nat)), place ++ low = passed →
      n ≤ endHeight place → n ≤ levels →
      s.descend? before n (endSlot place, place.length) ends = some (places passed n ++ ends)
  | 0, _, _, ends, _, _, _ => rfl
  | n + 1, place, low, ends, hpl, hn, hlevels => by
    have hfuel : low.length ≤ s.nodes.size := by
      have hlen := congrArg List.length (hpl ▸ ht)
      have hsize := h.size_nodes
      simp at hlen
      omega
    obtain ⟨low', hsplit, -, hreach⟩ := upTo_spec hlevels passed
    rw [descend?, walk?_eq h ht hpassed hrest _ place low hpl hn hfuel]
    simp only [Option.bind_eq_bind, Option.bind_some]
    rw [descend?_eq h ht hpassed hrest n _ low' _ hsplit.symm (Nat.le_of_lt hreach)
      (Nat.le_of_succ_le hlevels), places_succ]
    simp

/-- The predecessors are the last towers of each level among those that may be passed. -/
theorem predecessors?_eq (h : Represents s towers) {before : α → Bool}
    {passed rest : List (Tower α)} (ht : passed ++ rest = towers)
    (hpassed : ∀ e ∈ passed, before e.value = true)
    (hrest : ∀ e ∈ rest, before e.value = false) :
    s.predecessors? before = some (places passed levels) := by
  have := h.descend?_eq ht hpassed hrest levels [] passed [] rfl (Nat.le_refl _) (Nat.le_refl _)
  simpa [predecessors?] using this

/-- A search by position comes to the last tower that reaches the level up to that position. -/
theorem seek?_eq (h : Represents s towers) {passed rest : List (Tower α)}
    (ht : passed ++ rest = towers) {level : Nat} :
    ∀ (fuel : Nat) (place low : List (Tower α)), place ++ low = passed →
      level < endHeight place → low.length ≤ fuel →
      s.seek? level passed.length fuel (endSlot place, place.length) =
        some (endSlot (upTo level passed), (upTo level passed).length)
  | 0, place, low, hpl, hl, hfuel => by
    have hlow : low = [] := List.eq_nil_of_length_eq_zero (Nat.le_zero.1 hfuel)
    subst hlow hpl
    rw [upTo_eq (by simp) hl, seek?]
  | fuel + 1, place, low, hpl, hl, hfuel => by
    have hlink := h.link?_place
      (show place ++ (low ++ rest) = towers by rw [← List.append_assoc, hpl, ht]) hl
    have hlen : passed.length = place.length + low.length := by rw [← hpl, List.length_append]
    rcases low_or_first level low with hlow | ⟨low, e, later, rfl, hlow, he⟩
    · have hpast : (linkTo level rest).target.isSome →
          passed.length < place.length + (low.length + (linkTo level rest).span) := by
        intro htarget
        rcases low_or_first level rest with hnone | ⟨low', x, later, rfl, hlow', hx⟩
        · rw [← List.append_nil rest, linkTo_append_low hnone] at htarget
          cases htarget
        · rw [linkTo_append_reaching hlow' hx]
          simp only
          omega
      rw [← hpl, upTo_eq hlow hl, seek?]
      simp only [hlink, linkTo_append_low hlow, Option.bind_eq_bind, Option.bind_some]
      cases htarget : (linkTo level rest).target with
      | none => rfl
      | some next =>
        have := hpast (by rw [htarget]; rfl)
        simp [hpl, this]
    · have hgo := seek?_eq h ht fuel (place ++ low ++ [e]) later (by rw [← hpl]; simp)
        (by simpa using he) (by simp at hfuel; omega)
      have hnot : ¬passed.length < place.length + (low.length + 1) := by
        simp at hlen
        omega
      rw [seek?]
      simp only [hlink, List.append_assoc, List.cons_append, linkTo_append_reaching hlow he,
        Option.bind_eq_bind, Option.bind_some, if_neg hnot]
      simpa [Nat.add_assoc] using hgo

end Represents

/-! ## Rerouting -/

theorem NodeIs.setLink_of_ne {nodes : Array (Node α)} {slot height : Nat} {value : Option α}
    {link : Nat → Link} (h : NodeIs nodes slot value height link) {other : Nat} (hne : other ≠ slot)
    (level : Nat) (l : Link) : NodeIs (setLink nodes other level l) slot value height link := by
  rw [NodeIs] at h ⊢
  rw [setLink, Array.getElem?_modify, if_neg hne]
  exact h

theorem NodeIs.setLink {nodes : Array (Node α)} {slot height : Nat} {value : Option α}
    {link : Nat → Link} (h : NodeIs nodes slot value height link) (level : Nat) (l : Link) :
    NodeIs (setLink nodes slot level l) slot value height
      fun i => if i = level then l else link i := by
  rw [NodeIs] at h ⊢
  rw [RankedSet.setLink, Array.getElem?_modify, if_pos rfl, h]
  simp only [Option.map_some, Option.some.injEq, Node.mk.injEq, true_and]
  refine List.ext_getElem? fun i => ?_
  rw [List.getElem?_set]
  by_cases hi : level = i
  · subst hi
    by_cases hlt : level < height <;> simp [hlt]
  · have hi' : ¬i = level := fun h => hi h.symm
    by_cases hlt : i < height <;> simp [hi, hi', hlt]

theorem NodeIs.congr {nodes : Array (Node α)} {slot height : Nat} {value : Option α}
    {link link' : Nat → Link} (h : NodeIs nodes slot value height link)
    (heq : ∀ level < height, link level = link' level) : NodeIs nodes slot value height link' := by
  rw [NodeIs] at h ⊢
  rw [h, List.map_congr_left fun level hlevel => heq level (List.mem_range.1 hlevel)]

/-- The nodes of `passed` link to what follows in `after` below a level, and from the level on to
what follows in `before`. -/
def Rerouted (nodes : Array (Node α)) (passed before after : List (Tower α)) (level : Nat) : Prop :=
  ∀ place low, place ++ low = passed →
    NodeIs nodes (endSlot place) (endValue place) (endHeight place) fun i =>
      if i < level then linkTo i (low ++ after) else linkTo i (low ++ before)

/-- Different places of a first part have different slots. -/
def DistinctSlots (passed : List (Tower α)) : Prop :=
  ∀ place low place' low', place ++ low = passed → place' ++ low' = passed →
    endSlot place = endSlot place' → place = place'

theorem Rerouted.congr {nodes nodes' : Array (Node α)} {passed before after : List (Tower α)}
    {level : Nat} (h : Rerouted nodes passed before after level)
    (hframe : ∀ place low, place ++ low = passed →
      nodes'[endSlot place]? = nodes[endSlot place]?) :
    Rerouted nodes' passed before after level := by
  intro place low hpl
  rw [NodeIs, hframe place low hpl]
  exact h place low hpl

/-- One link has to change at a level: that of the last place that reaches it. -/
theorem Rerouted.step {nodes : Array (Node α)} {passed before after low : List (Tower α)}
    {level : Nat} (h : Rerouted nodes passed before after level) (hlevel : level < levels)
    (hd : DistinctSlots passed) (hlast : passed = upTo level passed ++ low) {link : Link}
    (hlink : link = linkTo level (low ++ after)) :
    Rerouted (setLink nodes (endSlot (upTo level passed)) level link) passed before after
      (level + 1) := by
  obtain ⟨rest, hsplit, hlow, hreach⟩ := upTo_spec hlevel passed
  obtain rfl : low = rest := List.append_cancel_left (hlast.symm.trans hsplit)
  intro place behind hpl
  by_cases heq : endSlot (upTo level passed) = endSlot place
  · -- the place whose link was set
    have hplace := hd _ _ _ _ hsplit.symm hpl heq
    subst hplace
    obtain rfl : behind = low := List.append_cancel_left (hpl.trans hsplit)
    refine ((h _ _ hpl).setLink level link).congr fun i _ => ?_
    by_cases hi : i = level
    · rw [if_pos hi, if_pos (by omega), hi]
      exact hlink
    · by_cases hi' : i < level
      · rw [if_neg hi, if_pos hi', if_pos (by omega)]
      · rw [if_neg hi, if_neg hi', if_neg (by omega)]
  · refine ((h _ _ hpl).setLink_of_ne heq level link).congr fun i hi => ?_
    by_cases hlevel' : i = level
    · -- another place that reaches the level has the last such place behind it
      subst hlevel'
      rw [if_neg (Nat.lt_irrefl _), if_pos (Nat.lt_succ_self _)]
      refine linkTo_append_congr ?_ _ _
      rcases List.append_eq_append_iff.1 (hpl.trans hsplit) with
        ⟨mid, hupTo, hlow'⟩ | ⟨mid, hplace, hrest⟩
      · rcases eq_nil_or_snoc mid with rfl | ⟨mid, e, rfl⟩
        · exact absurd (by rw [hupTo, List.append_nil]) heq
        · refine ⟨e, by simp [hlow'], ?_⟩
          rw [hupTo, ← List.append_assoc] at hreach
          simpa using hreach
      · rcases eq_nil_or_snoc mid with rfl | ⟨mid, e, rfl⟩
        · exact absurd (by rw [hplace, List.append_nil]) heq
        · rw [hplace, ← List.append_assoc] at hi
          have he : i < e.height := by simpa using hi
          exact absurd (hlow e (by simp [hrest])) (Nat.not_le.2 he)
    · by_cases hi' : i < level
      · rw [if_pos hi', if_pos (by omega)]
      · rw [if_neg hi', if_neg (by omega)]

end RecordLayer.RankedSet
