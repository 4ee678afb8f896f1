/-!
# Ranked sets

A sorted multiset that counts: it answers how many elements lie below a value, and which element
stands at a rank. It is a skip list kept in an arena. The head sits at position 0 and the elements
at positions 1, 2, …; each link carries the distance in positions that it covers, and a link to
nothing reaches to the last position. Removed nodes leave free slots, which later insertions take
first. How high a node is built is not up to the set: the heights come from outside, and no answer
depends on them.

Steps that a well-formed arena always allows (a link that exists, a linked node that holds a value,
a distance that can be shortened) are written as partial: they give `none` where the arena does not
allow them. The operations proper fall back to a neutral answer then.
-/

namespace RecordLayer

namespace RankedSet

/-- How many levels the head has. -/
def levels : Nat := 16

/-- Where the heights of nodes come from: each draw says how many levels the next node has besides
the lowest one. -/
abbrev Heights := Nat → Fin levels

/-- Every fourth node has a second level, every fourth of those a third one, and so on. -/
def Heights.ruler : Heights := fun n =>
  ⟨min (levels - 1) (Nat.log2 ((n + 1) ^^^ n) / 2),
    Nat.lt_of_le_of_lt (Nat.min_le_left ..) (Nat.lt_succ_self 15)⟩

instance : Inhabited Heights := ⟨Heights.ruler⟩

/-- A link to the next node of a level. -/
structure Link where
  /-- The slot of that node; `none` past the last one. -/
  target : Option Nat
  /-- The distance in positions that the link covers. -/
  span : Nat
deriving DecidableEq, Inhabited

/-- A slot of the arena: the head and free slots hold no value. The node has one link a level. -/
structure Node (α : Type) where
  value : Option α
  links : List Link
deriving Inhabited

end RankedSet

open RankedSet in
/-- A sorted multiset that knows the rank of each element. -/
structure RankedSet (α : Type) where
  /-- The arena; the head is in slot 0. -/
  nodes : Array (Node α)
  /-- Free slots, the one to take next in front. -/
  free : List Nat
  size : Nat
  heights : Heights
  /-- How many heights were drawn. -/
  drawn : Nat
deriving Inhabited

namespace RankedSet

variable {α : Type}

/-- The empty set, whose nodes will have the given heights. -/
def empty (heights : Heights) : RankedSet α :=
  ⟨#[⟨none, List.replicate levels ⟨none, 0⟩⟩], [], 0, heights, 0⟩

/-- Whether there is no element. -/
def isEmpty (s : RankedSet α) : Bool := s.size = 0

/-! ## The arena -/

/-- The link of a node at a level. -/
def link? (s : RankedSet α) (slot level : Nat) : Option Link := do
  let node ← s.nodes[slot]?
  node.links[level]?

/-- The value of a linked node. -/
def value? (s : RankedSet α) (slot : Nat) : Option α := do
  let node ← s.nodes[slot]?
  node.value

/-- Replaces the link of a node at a level. -/
def setLink (nodes : Array (Node α)) (slot level : Nat) (link : Link) : Array (Node α) :=
  nodes.modify slot fun node => { node with links := node.links.set level link }

/-- A difference that is not cut at zero. -/
def sub? (a b : Nat) : Option Nat := if b ≤ a then some (a - b) else none

/-! ## Finding a place -/

/-- Follows a level while the next value satisfies `before`, at most `fuel` steps. -/
def walk? (s : RankedSet α) (before : α → Bool) (level : Nat) :
    Nat → Nat × Nat → Option (Nat × Nat)
  | 0, place => some place
  | fuel + 1, (slot, position) => do
    let link ← s.link? slot level
    match link.target with
    | none => return (slot, position)
    | some next =>
      if before (← s.value? next) then s.walk? before level fuel (next, position + link.span)
      else return (slot, position)

/-- Walks the levels below `level` from the top down and collects where each walk ended, the lowest
level first. -/
def descend? (s : RankedSet α) (before : α → Bool) :
    Nat → Nat × Nat → List (Nat × Nat) → Option (List (Nat × Nat))
  | 0, _, ends => some ends
  | level + 1, place, ends => do
    let place ← s.walk? before level s.nodes.size place
    s.descend? before level place (place :: ends)

/-- The last node of each level whose value satisfies `before`, as slot and position. -/
def predecessors? (s : RankedSet α) (before : α → Bool) : Option (List (Nat × Nat)) :=
  s.descend? before levels (0, 0) []

/-- How many elements satisfy `before`, which holds for a first part of the order. -/
def countBefore (s : RankedSet α) (before : α → Bool) : Nat :=
  match s.predecessors? before with
  | some ((_, position) :: _) => position
  | _ => 0

/-! ## Changes -/

/-- Splices the new node `slot` in after the predecessors of the levels from `level` on. -/
def spliceIn? (slot height base : Nat) :
    Nat → List (Nat × Nat) → Array (Node α) → Option (Array (Node α))
  | _, [], nodes => some nodes
  | level, (prev, position) :: rest, nodes => do
    let node ← nodes[prev]?
    let old ← node.links[level]?
    if level < height then
      let new ← nodes[slot]?
      let _ ← new.links[level]?
      let after ← sub? (old.span + position) base
      let before ← sub? (base + 1) position
      let nodes := setLink nodes slot level ⟨old.target, after⟩
      spliceIn? slot height base (level + 1) rest (setLink nodes prev level ⟨some slot, before⟩)
    else
      spliceIn? slot height base (level + 1) rest
        (setLink nodes prev level ⟨old.target, old.span + 1⟩)

/-- Places a node that holds a value: in the next free slot, or in a new one. -/
def allocate (s : RankedSet α) (value : α) (height : Nat) : Nat × Array (Node α) × List Nat :=
  let node : Node α := ⟨some value, List.replicate height ⟨none, 0⟩⟩
  match s.free with
  | slot :: free => (slot, s.nodes.setIfInBounds slot node, free)
  | [] => (s.nodes.size, s.nodes.push node, [])

/-- Cuts the node `slot` out after the predecessors of the levels from `level` on. -/
def spliceOut? (slot : Nat) :
    Nat → List (Nat × Nat) → Array (Node α) → Option (Array (Node α))
  | _, [], nodes => some nodes
  | level, (prev, _) :: rest, nodes => do
    let node ← nodes[prev]?
    let old ← node.links[level]?
    if old.target = some slot then
      let removed ← nodes[slot]?
      let link ← removed.links[level]?
      let span ← sub? (old.span + link.span) 1
      spliceOut? slot (level + 1) rest (setLink nodes prev level ⟨link.target, span⟩)
    else
      let span ← sub? old.span 1
      spliceOut? slot (level + 1) rest (setLink nodes prev level ⟨old.target, span⟩)

variable [Ord α]

/-- Inserts a value after those that equal it, in a node of the given height. -/
def insertWith? (s : RankedSet α) (value : α) (height : Nat) : Option (RankedSet α) := do
  let ends ← s.predecessors? fun v => compare v value != .gt
  let (_, base) ← ends.head?
  let (slot, nodes, free) := s.allocate value height
  let nodes ← spliceIn? slot height base 0 ends nodes
  return { s with nodes, free, size := s.size + 1 }

/-- Removes the first occurrence of a value and says whether there was one. -/
def remove? (s : RankedSet α) (value : α) : Option (Bool × RankedSet α) := do
  let ends ← s.predecessors? fun v => compare v value == .lt
  let (prev, _) ← ends.head?
  let link ← s.link? prev 0
  match link.target with
  | none => return (false, s)
  | some slot =>
    if compare (← s.value? slot) value != .eq then return (false, s)
    else
      let nodes ← spliceOut? slot 0 ends s.nodes
      let nodes := nodes.setIfInBounds slot ⟨none, []⟩
      let size ← sub? s.size 1
      return (true, { s with nodes, free := slot :: s.free, size })

/-- Inserts a value after those that equal it, in a node of the given height. -/
def insertWith (s : RankedSet α) (value : α) (height : Nat) : RankedSet α :=
  (s.insertWith? value height).getD s

/-- Inserts a value after those that equal it, in a node of the next height. -/
def insert (s : RankedSet α) (value : α) : RankedSet α :=
  { s with drawn := s.drawn + 1 }.insertWith value (s.heights s.drawn + 1)

/-- Removes one occurrence of a value. -/
def erase (s : RankedSet α) (value : α) : RankedSet α :=
  match s.remove? value with
  | some (_, s) => s
  | none => s

/-! ## Answers -/

/-- The first element that is not below a value. -/
def firstNotBelow? (s : RankedSet α) (value : α) : Option α := do
  let ends ← s.predecessors? fun v => compare v value == .lt
  let (prev, _) ← ends.head?
  let link ← s.link? prev 0
  s.value? (← link.target)

/-- Whether a value occurs. -/
def contains (s : RankedSet α) (value : α) : Bool :=
  match s.firstNotBelow? value with
  | some v => compare v value == .eq
  | none => false

/-- How many elements are strictly below a value. -/
def rank (s : RankedSet α) (value : α) : Nat := s.countBefore fun v => compare v value == .lt

/-- How many elements are not above a value. -/
def rankInclusive (s : RankedSet α) (value : α) : Nat :=
  s.countBefore fun v => compare v value != .gt

omit [Ord α]

/-- Follows a level as long as the position does not pass `target`, at most `fuel` steps. -/
def seek? (s : RankedSet α) (level target : Nat) : Nat → Nat × Nat → Option (Nat × Nat)
  | 0, place => some place
  | fuel + 1, (slot, position) => do
    let link ← s.link? slot level
    match link.target with
    | none => return (slot, position)
    | some next =>
      if target < position + link.span then return (slot, position)
      else s.seek? level target fuel (next, position + link.span)

/-- Seeks a position on the levels below `level` from the top down. -/
def seekDown? (s : RankedSet α) (target : Nat) : Nat → Nat × Nat → Option α
  | 0, _ => none
  | level + 1, place => do
    let place ← s.seek? level target s.nodes.size place
    if place.2 = target then s.value? place.1 else s.seekDown? target level place

/-- The element at a rank, counted from zero. -/
def select (s : RankedSet α) (rank : Nat) : Option α :=
  if s.size ≤ rank then none else s.seekDown? (rank + 1) levels (0, 0)

/-- The slots that the lowest level links from a slot on, at most `fuel` of them. -/
def slotsFrom (s : RankedSet α) : Nat → Nat → List Nat
  | 0, _ => []
  | fuel + 1, slot =>
    match s.link? slot 0 with
    | some ⟨some next, _⟩ => next :: s.slotsFrom fuel next
    | _ => []

/-- The slots of the elements in order. -/
def slots (s : RankedSet α) : List Nat := s.slotsFrom s.nodes.size 0

/-- The elements in ascending order. -/
def toList (s : RankedSet α) : List α := s.slots.filterMap s.value?

end RankedSet

end RecordLayer
