/-!
# Sorted maps

A finite map as a list of keys and values in ascending order of the keys, each key once. The order
is the one in which tables are scanned and conflicts are reported.
-/

namespace RecordLayer

/-- Keys and values, the keys strictly ascending. -/
abbrev SortedMap (κ α : Type) := List (κ × α)

namespace SortedMap

variable {κ α : Type} [Ord κ]

/-- The value of a key. -/
def lookup? (key : κ) : SortedMap κ α → Option α
  | [] => none
  | (k, a) :: rest => if compare key k == .eq then some a else lookup? key rest

/-- Whether a key has a value. -/
def has (key : κ) (m : SortedMap κ α) : Bool := (lookup? key m).isSome

/-- Gives a key a value, in place of the one it had. -/
def put (key : κ) (value : α) : SortedMap κ α → SortedMap κ α
  | [] => [(key, value)]
  | (k, a) :: rest =>
    match compare key k with
    | .lt => (key, value) :: (k, a) :: rest
    | .eq => (key, value) :: rest
    | .gt => (k, a) :: put key value rest

/-- Removes a key. -/
def drop (key : κ) : SortedMap κ α → SortedMap κ α
  | [] => []
  | (k, a) :: rest => if compare key k == .eq then rest else (k, a) :: drop key rest

end SortedMap

end RecordLayer
