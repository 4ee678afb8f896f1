import RecordLayer.Fingerprint
import RecordLayer.Plan
import RecordLayer.Plan.Cost

/-!
# Plan cache

Selected plans by the fingerprint of their query. The cache is bounded: a new fingerprint takes the
place of the one that was not used for the longest time. Fingerprints may collide, so an entry also
keeps the canonical text, and only a query with the same text gets the plan.
-/

namespace RecordLayer

/-- A remembered plan. -/
structure CacheEntry where
  fingerprint : Fingerprint
  canonical : String
  plan : Plan
  cost : QueryCost
  /-- The tick of the last use. -/
  lastUsed : Nat
deriving Inhabited

/-- What a look-up finds. -/
inductive CacheLookup
  | hit (entry : CacheEntry)
  | miss
  /-- The fingerprint stands for another text. -/
  | collision (fingerprint : Fingerprint)

/-- Why a collision is reported. -/
def CacheLookup.collisionMessage (fingerprint : Fingerprint) : String :=
  "fingerprint " ++ fingerprint.render ++ " is cached for a different query"

/-- Remembered plans, at most `capacity` of them. -/
structure PlanCache where
  capacity : Nat
  tick : Nat := 0
  entries : List CacheEntry := []
deriving Inhabited

namespace PlanCache

/-- A cache for at least one plan. -/
def ofCapacity (capacity : Nat) : PlanCache := { capacity := max 1 capacity }

/-- How many plans are remembered. -/
def size (c : PlanCache) : Nat := c.entries.length

/-- The entry of a fingerprint. -/
def entry? (c : PlanCache) (fingerprint : Fingerprint) : Option CacheEntry :=
  c.entries.find? (·.fingerprint == fingerprint)

/-- Looks a plan up; finding it counts as a use. -/
def lookup (c : PlanCache) (fingerprint : Fingerprint) (canonical : String) :
    CacheLookup × PlanCache :=
  match c.entry? fingerprint with
  | none => (.miss, c)
  | some e =>
    if e.canonical ≠ canonical then (.collision fingerprint, c)
    else
      let used := { e with lastUsed := c.tick + 1 }
      let entries := c.entries.map fun e' => if e'.fingerprint = fingerprint then used else e'
      (.hit used, { c with tick := c.tick + 1, entries })

/-- The fingerprint that was not used for the longest time. -/
def leastRecent? : List CacheEntry → Option Fingerprint
  | [] => none
  | e :: rest =>
    let oldest := rest.foldl (fun best e => if e.lastUsed < best.lastUsed then e else best) e
    some oldest.fingerprint

/-- Forgets a fingerprint. -/
def without (c : PlanCache) (fingerprint : Fingerprint) : PlanCache :=
  { c with entries := c.entries.filter (·.fingerprint != fingerprint) }

/-- Remembers a plan and gives the fingerprint that had to go for it. -/
def insert (c : PlanCache) (fingerprint : Fingerprint) (canonical : String) (plan : Plan)
    (cost : QueryCost) : Option Fingerprint × PlanCache :=
  let evicted :=
    if (c.entry? fingerprint).isNone ∧ c.capacity ≤ c.size then leastRecent? c.entries else none
  let c := { c with tick := c.tick + 1 }
  let c := match evicted with
    | some f => c.without f
    | none => c
  let c := c.without fingerprint
  (evicted, { c with entries := c.entries ++ [⟨fingerprint, canonical, plan, cost, c.tick⟩] })

/-- Forgets every plan. -/
def clear (c : PlanCache) : PlanCache := { c with entries := [] }

end PlanCache

end RecordLayer
