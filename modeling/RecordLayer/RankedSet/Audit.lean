import RecordLayer.RankedSet

/-!
# Audit of a ranked set

Checks that the elements ascend, that the lowest level links as many as there are, and that the span
of every link on every level is the distance between the positions that it joins.
-/

namespace RecordLayer.RankedSet

/-- What an audit finds. -/
inductive Fault
  | spanSum (level sum size : Nat)
  | spanMismatch (level span distance : Nat)
  | outOfOrder (position : Nat)
  | length (found size : Nat)
deriving DecidableEq

namespace Fault

/-- The finding in words. -/
def message : Fault → String
  | spanSum level sum size => s!"level {level}: spans sum to {sum}, expected {size}"
  | spanMismatch level span distance =>
    s!"level {level}: span {span} does not match position distance {distance}"
  | outOfOrder position => s!"values out of order at position {position}"
  | length found size => s!"level 0 holds {found} nodes, expected {size}"

end Fault

variable {α : Type}

/-- The position of the first element that is below the one before it. -/
def firstDescent [Ord α] : Nat → List α → Option Nat
  | position, a :: b :: rest =>
    if compare a b == .gt then some (position + 1) else firstDescent (position + 1) (b :: rest)
  | _, _ => none

/-- Checks the links of one level from a slot on; `sum` is what they covered so far. There is no
outcome if a link does not exist or joins slots without a position in this order. -/
def auditLevel? (s : RankedSet α) (positionOf : Nat → Option Nat) (level : Nat) :
    Nat → Nat → Nat → Option (Except Fault Unit)
  | 0, _, _ => none
  | fuel + 1, slot, sum => do
    let link ← s.link? slot level
    let reached ← match link.target with
      | none => some s.size
      | some next => positionOf next
    let distance ← sub? reached (← positionOf slot)
    if link.span ≠ distance then return .error (.spanMismatch level link.span distance)
    else
      match link.target with
      | some next => s.auditLevel? positionOf level fuel next (sum + link.span)
      | none =>
        if sum + link.span ≠ s.size then return .error (.spanSum level (sum + link.span) s.size)
        else return .ok ()

/-- Checks some levels, up to the first one that is at fault. -/
def auditLevels? (s : RankedSet α) (positionOf : Nat → Option Nat) :
    List Nat → Option (Except Fault Unit)
  | [] => some (.ok ())
  | level :: rest => do
    match ← s.auditLevel? positionOf level (s.nodes.size + 1) 0 0 with
    | .error e => return .error e
    | .ok () => s.auditLevels? positionOf rest

/-- Checks the whole set; there is no outcome if the arena is not linked up. -/
def audit? [Ord α] (s : RankedSet α) : Option (Except Fault Unit) :=
  let slots := s.slots
  match firstDescent 1 s.toList with
  | some position => some (.error (.outOfOrder position))
  | none =>
    if slots.length ≠ s.size then some (.error (.length slots.length s.size))
    else s.auditLevels? (0 :: slots).idxOf? (List.range levels)

/-- What is at fault in a set, if anything is. -/
def audit [Ord α] (s : RankedSet α) : Except Fault Unit := s.audit?.getD (.ok ())

end RecordLayer.RankedSet
