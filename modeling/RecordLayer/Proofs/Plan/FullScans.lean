import RecordLayer.Proofs.Candidates.Making
import RecordLayer.Proofs.Cursor.Faults
import RecordLayer.Proofs.Delivery

/-!
# Plans without full scans

A plan says of itself whether it reads every record of its type. Of an intersection it looks at the
first child only. That is enough where the others are probed, as they are never opened then; a merge
opens them all. So the report can be relied on as long as no merging intersection has a full scan
behind its first child, and candidates never have one there.

The argument is about readings first: those that ask for no scan of all records are closed under
doing one after the other. A node in which no full scan stands makes only such readings and becomes
such a node, and building a plan that reports no full scan makes such a node.
-/

namespace RecordLayer

/-! ## Readings that ask for no full scan -/

namespace Reading

variable {α β : Type} {P : α → Prop} {Q : β → Prop}

/-- The reading asks for no scan of all records, whatever comes of it, and what it gives has a
property. -/
def Spares (x : Reading α) (P : α → Prop) : Prop :=
  ∀ before result after, (ExceptT.run x).run before = (result, after) →
    after.scans = before.scans ∧ ∀ a, result = .ok a → P a

theorem spares_pure {a : α} (h : P a) : Spares (pure a) P := by
  intro before result after hrun
  cases hrun
  exact ⟨rfl, fun b hb => Except.ok.inj hb ▸ h⟩

theorem spares_throw (e : StoreError) : Spares (throw e : Reading α) P := by
  intro before result after hrun
  cases hrun
  exact ⟨rfl, fun a ha => by cases ha⟩

theorem spares_modify {f : ReadTrace → ReadTrace} (h : ∀ trace, (f trace).scans = trace.scans) :
    Spares (modify f : Reading Unit) fun _ => True := by
  intro before result after hrun
  cases hrun
  exact ⟨h before, fun _ _ => trivial⟩

theorem spares_bind {x : Reading α} {f : α → Reading β} (hx : x.Spares P)
    (hf : ∀ a, P a → (f a).Spares Q) : Spares (x >>= f) Q := by
  intro before result after hrun
  rw [run_bind] at hrun
  cases hxr : (ExceptT.run x).run before with
  | mk first mid =>
    rw [hxr] at hrun
    obtain ⟨hscans, hP⟩ := hx _ _ _ hxr
    -- the first reading ends the whole in an error, or hands its result on
    cases first with
    | ok a =>
      obtain ⟨hrest, hQ⟩ := hf a (hP a rfl) _ _ _ hrun
      exact ⟨hrest.trans hscans, hQ⟩
    | error e =>
      cases hrun
      exact ⟨hscans, fun b hb => by cases hb⟩

/-- The second reading, where nothing is asked of what the first one gives. -/
theorem spares_then {x : Reading α} {f : α → Reading β} (hx : x.Spares fun _ => True)
    (hf : ∀ a, (f a).Spares Q) : Spares (x >>= f) Q :=
  spares_bind hx fun a _ => hf a

end Reading

namespace StoreView

open Reading

variable (v : StoreView)

theorem checkFault_spares (point : FaultPoint) : (v.checkFault point).Spares fun _ => True := by
  intro before result after hrun
  rw [run_checkFault] at hrun
  -- a fault, too, leaves the trace as it is
  cases hfault : v.fault point before with
  | none =>
    rw [hfault] at hrun
    cases hrun
    exact ⟨rfl, fun _ _ => trivial⟩
  | some e =>
    rw [hfault] at hrun
    cases hrun
    exact ⟨rfl, fun _ _ => trivial⟩

theorem ensureOpen_spares : v.ensureOpen.Spares fun _ => True := by
  unfold ensureOpen
  split
  · exact spares_pure trivial
  · exact spares_throw _

theorem note_spares (call : ReadCall) : (note call).Spares fun _ => True :=
  spares_modify fun _ => rfl

theorem recordType_spares (name : String) : (v.recordType name).Spares fun _ => True := by
  unfold recordType
  split
  · exact spares_pure trivial
  · exact spares_throw _

theorem checkIndex_spares (index : Index) : (v.checkIndex index).Spares fun _ => True := by
  unfold checkIndex
  refine spares_then (v.recordType_spares _) fun t => ?_
  split
  · exact spares_pure trivial
  · exact spares_throw _

theorem yieldRow_spares {α : Type} (row : α) : (v.yieldRow row).Spares fun _ => True :=
  spares_then (spares_modify fun _ => rfl) fun _ =>
    spares_then (v.checkFault_spares _) fun _ => spares_pure trivial

theorem endRows_spares : v.endRows.Spares fun _ => True :=
  spares_then (spares_modify fun _ => rfl) fun _ => v.checkFault_spares _

theorem yieldEntry_spares (row : EntryRow) : (v.yieldEntry row).Spares fun _ => True := by
  refine spares_then (v.yieldRow_spares row) fun row => ?_
  cases row with
  | entry e => exact spares_pure trivial
  | dangling index primaryKey => exact spares_throw _

theorem loadRecord_spares (recordType : String) (primaryKey : Value) (consistency : Consistency) :
    (v.loadRecord recordType primaryKey consistency).Spares fun _ => True := by
  unfold loadRecord
  -- a look-up asks for one record by its key, whatever of it is then seen
  refine spares_then (v.checkFault_spares _) fun _ => spares_then v.ensureOpen_spares fun _ =>
    spares_then (note_spares _) fun _ => spares_then (v.recordType_spares _) fun _ => ?_
  split <;> exact spares_pure trivial

theorem scanIndex_spares (index : Index) (range : KeyRange) (consistency : Consistency) :
    (v.scanIndex index range consistency).Spares fun _ => True := by
  unfold scanIndex
  exact spares_then v.ensureOpen_spares fun _ => spares_then (note_spares _) fun _ =>
    spares_then (v.checkIndex_spares index) fun _ => spares_pure trivial

theorem ranking_spares (index : Index) : (v.ranking index).Spares fun _ => True := by
  unfold ranking
  refine spares_then (spares_modify fun _ => rfl) fun _ =>
    spares_then (v.checkFault_spares _) fun _ =>
    spares_then v.ensureOpen_spares fun _ =>
    spares_then (v.checkIndex_spares index) fun _ => ?_
  split
  · exact spares_pure trivial
  · exact spares_throw _

theorem rankOf_spares (index : Index) (value : Value) :
    (v.rankOf index value).Spares fun _ => True := by
  refine spares_then (v.ranking_spares index) fun ranks => ?_
  cases ranks <;> exact spares_pure trivial

theorem selectRank_spares (index : Index) (rank : UInt64) :
    (v.selectRank index rank).Spares fun _ => True :=
  spares_then (v.ranking_spares index) fun _ => spares_pure trivial

end StoreView

/-! ## Filters -/

namespace CompiledNode

open Reading

variable (v : StoreView) (r : Record)

mutual

theorem eval_spares : ∀ node : CompiledNode, (eval v r node).Spares fun _ => True
  | .compare position op value => by
    rw [eval]
    exact spares_pure trivial
  | .oneOf position values => by
    rw [eval]
    exact spares_pure trivial
  | .rank position index op n => by
    rw [eval]
    exact spares_then (v.rankOf_spares index _) fun _ => spares_pure trivial
  | .not child => by
    rw [eval]
    exact spares_then (eval_spares child) fun _ => spares_pure trivial
  | .all children => by
    rw [eval]
    exact evalAll_spares children
  | .any children => by
    rw [eval]
    exact evalAny_spares children

theorem evalAll_spares : ∀ nodes : List CompiledNode, (evalAll v r nodes).Spares fun _ => True
  | [] => by
    rw [evalAll]
    exact spares_pure trivial
  | node :: rest => by
    rw [evalAll]
    refine spares_then (eval_spares node) fun accepted => ?_
    cases accepted with
    | true => exact evalAll_spares rest
    | false => exact spares_pure trivial

theorem evalAny_spares : ∀ nodes : List CompiledNode, (evalAny v r nodes).Spares fun _ => True
  | [] => by
    rw [evalAny]
    exact spares_pure trivial
  | node :: rest => by
    rw [evalAny]
    refine spares_then (eval_spares node) fun accepted => ?_
    cases accepted with
    | true => exact spares_pure trivial
    | false => exact evalAny_spares rest

end

end CompiledNode

open Reading in
theorem CompiledFilter.allAccept_spares (v : StoreView) (r : Record) (tests : List CompiledFilter) :
    (allAccept v r tests).Spares fun _ => True := by
  induction tests with
  | nil => exact spares_pure trivial
  | cons f rest ih =>
    rw [allAccept]
    refine spares_then (CompiledNode.eval_spares v r f.root) fun accepted => ?_
    cases accepted with
    | true => exact ih
    | false => exact spares_pure trivial

/-! ## Nodes -/

/-- The state that a step leaves, if any, has a property. -/
def Pull.Leaves {σ : Type} (P : σ → Prop) : Pull σ → Prop
  | .emit _ next | .busy next => P next
  | .done => True

namespace CursorNode

open Reading

/-- No full scan stands in the node. -/
inductive IndexOnly : CursorNode → Prop
  | indexScan (index : Index) (bounds : ScanBounds) (covering : Bool) (consistency : Consistency)
    (rows : Option (List StoreView.EntryRow)) :
    IndexOnly (.indexScan index bounds covering consistency rows)
  | chain {children : List CursorNode} (h : ∀ node ∈ children, IndexOnly node)
    (dedup : Option Dedup) : IndexOnly (.chain children dedup)
  | merge {children : List CursorNode} (h : ∀ node ∈ children, IndexOnly node) (key : List Nat)
    (dedup : Option Dedup) (heads : List MergeHead) (waiting : List Nat) (held : Option MergeHead) :
    IndexOnly (.merge children key dedup heads waiting held)
  | join {children : List CursorNode} (h : ∀ node ∈ children, IndexOnly node) (key : List Nat)
    (heads : List (Option (List Value × Record))) : IndexOnly (.join children key heads)
  | inJoin {batch : List CursorNode} (h : ∀ node ∈ batch, IndexOnly node) (index : Index)
    (values : List Value) (batchSize : Nat) (consistency : Consistency) (next : Nat) :
    IndexOnly (.inJoin index values batchSize consistency next batch)
  | filter {child : CursorNode} (h : IndexOnly child) (tests : List CompiledFilter) :
    IndexOnly (.filter child tests)
  | limit {child : CursorNode} (h : IndexOnly child) (remaining : Nat) :
    IndexOnly (.limit child remaining)

variable (v : StoreView)

theorem resolve_spares (index : Index) (bounds : ScanBounds) :
    (resolve v index bounds).Spares fun _ => True := by
  cases bounds with
  | keys range => exact spares_pure trivial
  | ranks start stop =>
    unfold resolve
    dsimp only
    split
    · exact spares_pure trivial
    · -- the lower end costs a look at the ranks unless the window starts at the first one
      split
      rotate_left
      refine spares_then (v.selectRank_spares index _) fun _ => ?_
      all_goals
        refine spares_then (spares_pure trivial) fun lower => ?_
        cases lower with
        | none => exact spares_pure trivial
        | some lower =>
          cases stop with
          | none => exact spares_then (spares_pure trivial) fun _ => spares_pure trivial
          | some stop =>
            refine spares_then (v.selectRank_spares index _) fun upper => ?_
            cases upper <;> exact spares_then (spares_pure trivial) fun _ => spares_pure trivial

theorem openScan_spares (index : Index) (bounds : ScanBounds) (consistency : Consistency) :
    (openScan v index bounds consistency).Spares fun _ => True := by
  refine spares_then (resolve_spares v index bounds) fun range => ?_
  cases range with
  | none => exact spares_pure trivial
  | some range =>
    exact spares_then (v.scanIndex_spares index range consistency) fun _ => spares_pure trivial

theorem stepEntries_spares (index : Index) (bounds : ScanBounds) (covering : Bool)
    (consistency : Consistency) (rows : List StoreView.EntryRow) :
    (stepEntries v index bounds covering consistency rows).Spares (Pull.Leaves IndexOnly) := by
  cases rows with
  | nil => exact spares_then v.endRows_spares fun _ => spares_pure trivial
  | cons row rest =>
    refine spares_then (v.yieldEntry_spares row) fun e => ?_
    dsimp only
    split
    · exact spares_pure (.indexScan ..)
    · refine spares_then (v.loadRecord_spares _ _ _) fun found => ?_
      cases found <;> exact spares_pure (.indexScan ..)

/-! One lemma for each kind of node, about any way of stepping its children that asks
for no full scan. -/

section Steps

variable {v} {children : List CursorNode}

/-- No full scan stands in any of the nodes. -/
def AllIndexOnly (nodes : List CursorNode) : Prop := ∀ node ∈ nodes, node.IndexOnly

theorem AllIndexOnly.cons {node : CursorNode} {rest : List CursorNode} (h : node.IndexOnly)
    (hrest : AllIndexOnly rest) : AllIndexOnly (node :: rest) :=
  List.forall_mem_cons.2 ⟨h, hrest⟩

theorem step_indexScan_spares (index : Index) (bounds : ScanBounds) (covering : Bool)
    (consistency : Consistency) (rows : Option (List StoreView.EntryRow)) :
    (step v (.indexScan index bounds covering consistency rows)).Spares
      (Pull.Leaves IndexOnly) := by
  unfold step
  cases rows with
  | none =>
    refine spares_then (openScan_spares v index bounds consistency) fun opened => ?_
    cases opened with
    | none => exact spares_pure trivial
    | some rows => exact stepEntries_spares v index bounds covering consistency rows
  | some rows => exact stepEntries_spares v index bounds covering consistency rows

theorem step_chain_spares (dedup : Option Dedup)
    (hhead : (stepHead v children).Spares (Pull.Leaves AllIndexOnly)) :
    (step v (.chain children dedup)).Spares (Pull.Leaves IndexOnly) := by
  unfold step
  refine spares_bind hhead fun p hp => ?_
  cases p with
  | done => exact spares_pure trivial
  | busy next => exact spares_pure (.chain hp _)
  | emit r next =>
    dsimp only
    split <;> exact spares_pure (.chain hp _)

theorem step_merge_spares (key : List Nat) (dedup : Option Dedup) (heads : List MergeHead)
    (waiting : List Nat) (held : Option MergeHead) (h : AllIndexOnly children)
    (hat : ∀ i, (stepAt v i children).Spares (Pull.Leaves AllIndexOnly)) :
    (step v (.merge children key dedup heads waiting held)).Spares (Pull.Leaves IndexOnly) := by
  unfold step
  -- only asking a child reads from the store
  cases waiting with
  | cons i rest =>
    refine spares_bind (hat i) fun p hp => ?_
    cases p with
    | done => exact spares_pure (.merge h ..)
    | busy next => exact spares_pure (.merge hp ..)
    | emit r next => exact spares_pure (.merge hp ..)
  | nil =>
    cases held with
    | some head =>
      dsimp only
      split <;> exact spares_pure (.merge h ..)
    | none =>
      cases heads with
      | nil => exact spares_pure trivial
      | cons head rest => exact spares_pure (.merge h ..)

theorem step_join_spares (key : List Nat) (heads : List (Option (List Value × Record)))
    (h : AllIndexOnly children)
    (hat : ∀ i, (stepAt v i children).Spares (Pull.Leaves AllIndexOnly)) :
    (step v (.join children key heads)).Spares (Pull.Leaves IndexOnly) := by
  unfold step
  -- a child is asked, or the known heads decide without a reading
  split
  next i _ =>
    refine spares_bind (hat i) fun p hp => ?_
    cases p with
    | done => exact spares_pure trivial
    | busy next => exact spares_pure (.join hp ..)
    | emit r next => exact spares_pure (.join hp ..)
  · split
    · exact spares_pure (.join h ..)
    · exact spares_pure trivial
    · exact spares_pure (.join h ..)

theorem step_inJoin_spares (index : Index) (values : List Value) (batchSize : Nat)
    (consistency : Consistency) (next : Nat)
    (hhead : (stepHead v children).Spares (Pull.Leaves AllIndexOnly)) :
    (step v (.inJoin index values batchSize consistency next children)).Spares
      (Pull.Leaves IndexOnly) := by
  unfold step
  refine spares_bind hhead fun p hp => ?_
  cases p with
  | emit r rest => exact spares_pure (.inJoin hp ..)
  | busy rest => exact spares_pure (.inJoin hp ..)
  | done =>
    dsimp only
    split
    · exact spares_pure trivial
    · -- the next batch consists of look-ups in the index
      refine spares_pure (.inJoin (fun node hnode => ?_) ..)
      obtain ⟨value, -, rfl⟩ := List.mem_map.1 hnode
      exact .indexScan ..

variable {child : CursorNode} (hchild : (step v child).Spares (Pull.Leaves IndexOnly))
include hchild

theorem step_filter_spares (tests : List CompiledFilter) :
    (step v (.filter child tests)).Spares (Pull.Leaves IndexOnly) := by
  unfold step
  refine spares_bind hchild fun p hp => ?_
  cases p with
  | done => exact spares_pure trivial
  | busy next => exact spares_pure (.filter hp _)
  | emit r next =>
    refine spares_then (CompiledFilter.allAccept_spares v r tests) fun accepted => ?_
    cases accepted <;> exact spares_pure (.filter hp _)

theorem step_limit_spares (remaining : Nat) :
    (step v (.limit child remaining)).Spares (Pull.Leaves IndexOnly) := by
  unfold step
  split
  · exact spares_pure trivial
  · refine spares_bind hchild fun p hp => ?_
    cases p with
    | done => exact spares_pure trivial
    | busy next => exact spares_pure (.limit hp _)
    | emit r next => exact spares_pure (.limit hp _)

end Steps

mutual

/-- **A step of a node without full scans asks for none** and leaves a node without full scans. -/
theorem step_spares : ∀ node : CursorNode, node.IndexOnly →
    (node.step v).Spares (Pull.Leaves IndexOnly)
  | .indexScan index bounds covering consistency rows, _ =>
    step_indexScan_spares index bounds covering consistency rows
  | .chain children dedup, .chain h _ => step_chain_spares dedup (stepHead_spares children h)
  | .merge children key dedup heads waiting held, .merge h .. =>
    step_merge_spares key dedup heads waiting held h fun i => stepAt_spares i children h
  | .join children key heads, .join h .. =>
    step_join_spares key heads h fun i => stepAt_spares i children h
  | .inJoin index values batchSize consistency next batch, .inJoin h .. =>
    step_inJoin_spares index values batchSize consistency next (stepHead_spares batch h)
  | .filter child tests, .filter h _ => step_filter_spares (step_spares child h) tests
  | .limit child remaining, .limit h _ => step_limit_spares (step_spares child h) remaining

theorem stepHead_spares : ∀ nodes : List CursorNode, AllIndexOnly nodes →
    (stepHead v nodes).Spares (Pull.Leaves AllIndexOnly)
  | [], _ => by
    unfold stepHead
    exact spares_pure trivial
  | node :: rest, h => by
    obtain ⟨hnode, hrest⟩ := List.forall_mem_cons.1 h
    unfold stepHead
    refine spares_bind (step_spares node hnode) fun p hp => ?_
    cases p with
    | done => exact spares_pure hrest
    | busy next => exact spares_pure (.cons hp hrest)
    | emit r next => exact spares_pure (.cons hp hrest)

theorem stepAt_spares : ∀ (i : Nat) (nodes : List CursorNode), AllIndexOnly nodes →
    (stepAt v i nodes).Spares (Pull.Leaves AllIndexOnly)
  | _, [], _ => by
    unfold stepAt
    exact spares_pure trivial
  | 0, node :: rest, h => by
    obtain ⟨hnode, hrest⟩ := List.forall_mem_cons.1 h
    unfold stepAt
    refine spares_bind (step_spares node hnode) fun p hp => ?_
    cases p with
    | done => exact spares_pure trivial
    | busy next => exact spares_pure (.cons hp hrest)
    | emit r next => exact spares_pure (.cons hp hrest)
  | i + 1, node :: rest, h => by
    obtain ⟨hnode, hrest⟩ := List.forall_mem_cons.1 h
    unfold stepAt
    refine spares_bind (stepAt_spares i rest hrest) fun p hp => ?_
    cases p with
    | done => exact spares_pure trivial
    | busy next => exact spares_pure (.cons hnode hp)
    | emit r next => exact spares_pure (.cons hnode hp)

end

theorem pullWithin_spares (fuel : Nat) (node : CursorNode) (h : node.IndexOnly) :
    (pullWithin v fuel node).Spares (Pull.Leaves IndexOnly) := by
  induction fuel generalizing node with
  | zero => exact spares_pure h
  | succ fuel ih =>
    refine spares_bind (step_spares v node h) fun p hp => ?_
    cases p with
    | busy next => exact ih next hp
    | emit r next => exact spares_pure hp
    | done => exact spares_pure trivial

end CursorNode

/-! ## Cursors -/

namespace Cursor

/-- A pull asks for no full scan and leaves a cursor without full scans. -/
theorem next_spares {c : Cursor} (h : c.node.IndexOnly) (v : StoreView) (cancelled : Bool)
    (trace : ReadTrace) (m : Monitor) :
    (c.next v cancelled trace m).trace.scans = trace.scans ∧
      (c.next v cancelled trace m).cursor.node.IndexOnly := by
  by_cases hstate : c.state = .notStarted ∨ c.state = .active
  · cases cancelled with
    | true =>
      rw [next_cancelled hstate]
      exact ⟨rfl, h⟩
    | false =>
      rw [next_eq hstate]
      -- a pull is steps of the node, each of which opens no scan of records
      have hpull := CursorNode.pullWithin_spares v (c.node.work v) c.node h trace
      cases hrun : (ExceptT.run (c.node.pull v)).run trace with
      | mk result after =>
        obtain ⟨hscans, hleaves⟩ := hpull result after hrun
        cases result with
        | error e => exact ⟨hscans, h⟩
        | ok p =>
          have hleaves := hleaves p rfl
          cases p with
          | emit r node => exact ⟨hscans, hleaves⟩
          | busy node => exact ⟨hscans, h⟩
          | done => exact ⟨hscans, h⟩
  · -- a cursor that has ended reads nothing
    unfold next
    cases hend : c.state with
    | notStarted => exact absurd (.inl hend) hstate
    | active => exact absurd (.inr hend) hstate
    | exhausted => exact ⟨rfl, h⟩
    | failed => exact ⟨rfl, h⟩

/-- **Draining a cursor without full scans asks for none.** -/
theorem drainWithin_spares {c : Cursor} (h : c.node.IndexOnly) (v : StoreView) (cancelled : Bool)
    (fuel : Nat) (trace : ReadTrace) (m : Monitor) :
    (drainWithin v cancelled fuel c trace m).2.2.trace.scans = trace.scans := by
  induction fuel generalizing c trace m with
  | zero => rfl
  | succ fuel ih =>
    obtain ⟨hscans, hnode⟩ := next_spares h v cancelled trace m
    -- after an error or at the end nothing more is pulled
    unfold drainWithin
    split <;> rename_i hnext <;> rw [hnext] at hscans hnode
    · exact (ih hnode _ _).trans hscans
    · exact hscans
    · exact hscans

/-- Every pull, whenever the execution is cancelled, asks for no full scan. -/
theorem pullAt_spares {c : Cursor} (h : c.node.IndexOnly) (v : StoreView) (cancelled : Nat → Bool)
    (trace : ReadTrace) (m : Monitor) (n : Nat) :
    (c.pullAt v cancelled trace m n).trace.scans = trace.scans := by
  induction n generalizing c cancelled trace m with
  | zero => exact (next_spares h v _ trace m).1
  | succ n ih =>
    obtain ⟨hscans, hnode⟩ := next_spares h v (cancelled 0) trace m
    rw [pullAt]
    exact (ih hnode _ _ _).trans hscans

end Cursor

/-! ## Plans -/

namespace Plan

variable {p : Plan}

/-- No merging intersection that a run comes to has a full scan behind its first child. What a
probing intersection has behind its first child is not opened. -/
inductive MergesIndexes : Plan → Prop
  | fullScan (recordType : String) : MergesIndexes (.fullScan recordType)
  | indexScan (scan : IndexScan) : MergesIndexes (.indexScan scan)
  | inJoin (field : String) (values : List Value) (index : Index) (batchSize : Nat) :
    MergesIndexes (.inJoin field values index batchSize)
  | union {children : List Plan} (h : ∀ p ∈ children, MergesIndexes p) (dedup : Option String)
    (merge : Option (List String)) : MergesIndexes (.union children dedup merge)
  | merge {first : Plan} {rest : List Plan} (hfirst : MergesIndexes first)
    (hrest : ∀ p ∈ rest, MergesIndexes p) (hindex : ∀ p ∈ rest, p.usesFullScan = false)
    (key : List String) : MergesIndexes (.intersection (first :: rest) (some key))
  | probe {first : Plan} (hfirst : MergesIndexes first) (rest : List Plan) :
    MergesIndexes (.intersection (first :: rest) none)
  | filter {child : Plan} (h : MergesIndexes child) (residual : Filter) :
    MergesIndexes (.filter child residual)
  | limit {child : Plan} (h : MergesIndexes child) (count : Nat) :
    MergesIndexes (.limit child count)

theorem anyUsesFullScan_eq_false {plans : List Plan} :
    anyUsesFullScan plans = false ↔ ∀ p ∈ plans, p.usesFullScan = false := by
  induction plans with
  | nil => simp [anyUsesFullScan]
  | cons p rest ih => simp [anyUsesFullScan, ih]

/-- Every node that is built for a list is built for one of its plans. -/
theorem exists_of_mem_buildAll {c : ExecutionContext} {plans : List Plan} {nodes : List CursorNode}
    (h : c.buildAll plans = .ok nodes) {node : CursorNode} (hnode : node ∈ nodes) :
    ∃ p ∈ plans, c.build p = .ok node := by
  induction plans generalizing nodes with
  | nil =>
    cases h
    cases hnode
  | cons p rest ih =>
    obtain ⟨first, hfirst, htail⟩ := exists_of_bind_eq_ok h
    obtain ⟨others, hothers, hok⟩ := exists_of_bind_eq_ok htail
    cases hok
    -- the node of the first plan, or one of the rest
    rcases List.mem_cons.1 hnode with rfl | hnode
    · exact ⟨p, by simp, hfirst⟩
    · obtain ⟨q, hq, hbuild⟩ := ih hothers hnode
      exact ⟨q, List.mem_cons_of_mem _ hq, hbuild⟩

/-- The nodes for plans that build to nodes without full scans. -/
theorem indexOnly_of_buildAll {c : ExecutionContext} {plans : List Plan}
    (h : ∀ p ∈ plans, ∀ node, c.build p = .ok node → node.IndexOnly) {nodes : List CursorNode}
    (hnodes : c.buildAll plans = .ok nodes) : ∀ node ∈ nodes, node.IndexOnly := by
  intro node hnode
  -- one plan of the list answers for the node
  obtain ⟨p, hp, hbuild⟩ := exists_of_mem_buildAll hnodes hnode
  exact h p hp node hbuild

section Building

variable {c : ExecutionContext} {node : CursorNode}

theorem indexOnly_of_buildScan {scan : IndexScan} (h : c.buildScan scan = .ok node) :
    node.IndexOnly := by
  -- once the schema is checked, a scan is refused for its kind or becomes one of the index
  obtain ⟨-, -, h⟩ := exists_of_bind_eq_ok h
  dsimp only at h
  split at h
  · cases h
  · cases h
    exact .indexScan ..

theorem indexOnly_of_buildInJoin {field : String} {values : List Value} {index : Index}
    {batchSize : Nat} (h : c.buildInJoin field values index batchSize = .ok node) :
    node.IndexOnly := by
  obtain ⟨-, -, h⟩ := exists_of_bind_eq_ok h
  dsimp only at h
  -- past the two checks stands a node whose batch is still empty
  split at h
  · cases h
  split at h
  · cases h
  · cases h
    exact .inJoin (by simp) ..

theorem indexOnly_of_buildUnion {children : List CursorNode} {dedup : Option String}
    {merge : Option (List String)} (hchildren : ∀ child ∈ children, child.IndexOnly)
    (h : c.buildUnion children dedup merge = .ok node) : node.IndexOnly := by
  obtain ⟨position, -, h⟩ := exists_of_bind_eq_ok h
  -- the children are opened one after the other, or side by side
  cases merge with
  | none =>
    cases h
    exact .chain hchildren _
  | some key =>
    obtain ⟨positions, -, hok⟩ := exists_of_bind_eq_ok h
    cases hok
    exact .merge hchildren ..

/-- Only the driver of a probe is built; the plans behind it are tests. -/
theorem indexOnly_of_buildProbe {first : Plan} {rest : List Plan}
    (hfirst : ∀ driver, c.build first = .ok driver → driver.IndexOnly)
    (h : c.buildProbe (first :: rest) = .ok node) : node.IndexOnly := by
  rw [ExecutionContext.buildProbe] at h
  obtain ⟨driver, hdriver, h⟩ := exists_of_bind_eq_ok h
  -- the filters of the other plans are compiled, the plans themselves are not built
  obtain ⟨tests, -, hok⟩ := exists_of_bind_eq_ok h
  cases hok
  exact .filter (hfirst driver hdriver) _

/-- **A plan that reports no full scan is built without one,** if its merges have none either. -/
theorem MergesIndexes.indexOnly (hp : p.MergesIndexes) (huses : p.usesFullScan = false)
    (hbuild : c.build p = .ok node) : node.IndexOnly := by
  induction hp generalizing node with
  | fullScan recordType =>
    -- a full scan would have been reported
    rw [usesFullScan] at huses
    cases huses
  | indexScan scan =>
    rw [ExecutionContext.build] at hbuild
    exact indexOnly_of_buildScan hbuild
  | inJoin field values index batchSize =>
    rw [ExecutionContext.build] at hbuild
    exact indexOnly_of_buildInJoin hbuild
  | union h dedup merge ih =>
    rw [usesFullScan] at huses
    have hchildren := anyUsesFullScan_eq_false.1 huses
    rw [ExecutionContext.build] at hbuild
    obtain ⟨nodes, hnodes, hbuild⟩ := exists_of_bind_eq_ok hbuild
    exact indexOnly_of_buildUnion
      (indexOnly_of_buildAll (fun q hq _ => ih q hq (hchildren q hq)) hnodes) hbuild
  | merge hfirst hrest hindex key ihfirst ihrest =>
    rw [usesFullScan, headUsesFullScan] at huses
    rw [ExecutionContext.build] at hbuild
    obtain ⟨-, -, hbuild⟩ := exists_of_bind_eq_ok hbuild
    obtain ⟨nodes, hnodes, hbuild⟩ := exists_of_bind_eq_ok hbuild
    obtain ⟨positions, -, hok⟩ := exists_of_bind_eq_ok hbuild
    cases hok
    refine .join (indexOnly_of_buildAll (fun q hq => ?_) hnodes) ..
    -- the report speaks of the first child, the condition on merges of the others
    rcases List.mem_cons.1 hq with rfl | hq
    · exact fun _ => ihfirst huses
    · exact fun _ => ihrest q hq (hindex q hq)
  | probe hfirst rest ih =>
    rw [usesFullScan, headUsesFullScan] at huses
    rw [ExecutionContext.build] at hbuild
    exact indexOnly_of_buildProbe (fun _ => ih huses) hbuild
  | filter h residual ih =>
    rw [usesFullScan] at huses
    rw [ExecutionContext.build] at hbuild
    obtain ⟨child, hchild, hbuild⟩ := exists_of_bind_eq_ok hbuild
    obtain ⟨test, -, hok⟩ := exists_of_bind_eq_ok hbuild
    cases hok
    exact .filter (ih huses hchild) _
  | limit h count ih =>
    rw [usesFullScan] at huses
    rw [ExecutionContext.build] at hbuild
    obtain ⟨child, hchild, hok⟩ := exists_of_bind_eq_ok hbuild
    cases hok
    exact .limit (ih huses hchild) _

end Building

theorem MergesIndexes.withResidual (h : p.MergesIndexes) (residual : Filter) :
    (p.withResidual residual).MergesIndexes := by
  unfold Plan.withResidual
  split
  · exact h
  · exact .filter h residual

theorem MergesIndexes.withLimit (h : p.MergesIndexes) (limit : Option Nat) :
    (p.withLimit limit).MergesIndexes := by
  cases limit with
  | none => exact h
  | some count => exact .limit h count

end Plan

/-! ## Candidates -/

namespace PlanningContext

variable {c : PlanningContext} {conjuncts : List Filter} {required : Option (List String)}
    {p : Plan}

theorem Made.mergesIndexes (hunions : ∀ f ∈ conjuncts, ∀ q, c.conjunctUnion? f = some q →
    q.MergesIndexes) (h : c.Made conjuncts required p) : p.MergesIndexes := by
  cases h with
  | point | scan => exact (Plan.MergesIndexes.indexScan _).withResidual _
  | lookUps => exact (Plan.MergesIndexes.inJoin ..).withResidual _
  | @intersection scans hscans htwo =>
    refine Plan.MergesIndexes.withResidual ?_ _
    obtain ⟨first, rest, rfl⟩ :=
      List.exists_cons_of_ne_nil (List.ne_nil_of_length_pos (Nat.lt_of_lt_of_le Nat.two_pos htwo))
    -- all children of an intersection are scans of indexes
    have hrest : ∀ q ∈ rest.map fun m => Plan.indexScan m.scan, ∃ m : IndexMatch,
        q = .indexScan m.scan := by
      intro q hq
      obtain ⟨m, -, rfl⟩ := List.mem_map.1 hq
      exact ⟨m, rfl⟩
    rw [List.map_cons]
    cases c.mergeKey? (.indexScan first.scan :: rest.map fun m => .indexScan m.scan) with
    | none => exact .probe (.indexScan _) _
    | some key =>
      refine .merge (.indexScan _) (fun q hq => ?_) (fun q hq => ?_) key
      · obtain ⟨m, rfl⟩ := hrest q hq
        exact .indexScan _
      · obtain ⟨m, rfl⟩ := hrest q hq
        rw [Plan.usesFullScan]
  | union hi hq => exact (hunions _ (List.mem_of_getElem? hi) _ hq).withResidual _

theorem branch_mergesIndexes (f : Filter) :
    (∀ q, c.branchPlan? f = some q → q.MergesIndexes) ∧
      ∀ q, c.conjunctUnion? f = some q → q.MergesIndexes := by
  refine branch_induction (H := fun _ => True) (B := fun _ => Plan.MergesIndexes)
    (U := fun _ => Plan.MergesIndexes) (fun _ _ _ _ => trivial) (fun _ _ _ _ => trivial)
    (fun g q _ hunions hq => ?_) (fun branches q _ hbranches hq => ?_) f trivial
  · exact (made_of_branchPlan hq).mergesIndexes hunions
  · obtain ⟨children, -, hchildren, rfl⟩ := unionPlan_eq_some hq
    refine .union (fun r hr => ?_) _ _
    obtain ⟨g, hg, hplan⟩ := exists_branch hchildren hr
    exact hbranches g hg r hplan

/-- **No candidate merges a full scan.** -/
theorem generate_mergesIndexes {q : Query} {prepared : Filter.Prepared}
    (h : p ∈ (c.generate prepared q).1) : p.MergesIndexes := by
  obtain ⟨base, rfl, hmade | ⟨-, rfl⟩ | ⟨g, -, hunion⟩⟩ := generate_cases h
  · exact (hmade.mergesIndexes fun g _ => (branch_mergesIndexes g).2).withLimit _
  · exact ((Plan.MergesIndexes.fullScan _).withResidual _).withLimit _
  · exact ((branch_mergesIndexes g).2 base hunion).withLimit _

end PlanningContext

/-! ## The main result -/

/-- **A plan that reports no full scan never asks for one,** if its merges have none behind
their first child, as is true of every candidate of every query: neither draining its cursor
nor any pull of it does, whatever the store holds, whichever reads fail and whenever the
execution is cancelled. -/
theorem Plan.scans_only_as_reported {p : Plan} {c : ExecutionContext} {m m' : Monitor}
    {cursor : Cursor}
    (hmerges : p.MergesIndexes ∨
      ∃ (d : PlanningContext) (q : Query) (prepared : Filter.Prepared),
        p ∈ (d.generate prepared q).1)
    (huses : p.usesFullScan = false) (hopen : Cursor.open c p m = (.ok cursor, m')) (v : StoreView)
    (trace : ReadTrace) :
    (∀ stop, (cursor.drain v stop trace m').2.2.trace.scans = trace.scans) ∧
      ∀ cancelled n, (cursor.pullAt v cancelled trace m' n).trace.scans = trace.scans := by
  have hmerges : p.MergesIndexes := by
    rcases hmerges with hmerges | ⟨d, q, prepared, hcandidate⟩
    · exact hmerges
    · exact PlanningContext.generate_mergesIndexes hcandidate
  have hnode : cursor.node.IndexOnly := by
    unfold Cursor.open at hopen
    split at hopen
    · cases hopen
    · rename_i node hbuild
      cases hopen
      exact hmerges.indexOnly huses hbuild
  exact ⟨fun stop => Cursor.drainWithin_spares hnode v stop _ trace m',
    fun cancelled n => Cursor.pullAt_spares hnode v cancelled trace m' n⟩

namespace Visits

/-- The visitors of age one by a merge of two scans, and those with two numbers by look-ups; the
full scan that the look-ups are probed against is not run. -/
def unscanned : Plan :=
  .limit (.union [
    .intersection [.indexScan (ageScan 1), .indexScan scan] (some ["id"]),
    .filter (.intersection [.inJoin "id" [.int 1, .int 2] byIdAge 1, .fullScan "t"] none)
      (.compare "age" .gt (.int 0))] (some "id") none) 3

theorem unscanned_mergesIndexes : unscanned.MergesIndexes := by
  refine .limit (.union (fun p hp => ?_) _ _) _
  rcases List.mem_cons.1 hp with rfl | hp
  · refine .merge (.indexScan _) (fun q hq => ?_) (fun q hq => ?_) _
    · rw [List.mem_singleton.1 hq]
      exact .indexScan _
    · rw [List.mem_singleton.1 hq, Plan.usesFullScan]
  · rw [List.mem_singleton.1 hp]
    exact .filter (.probe (.inJoin ..) _) _

theorem scans_only_as_reported_unscanned : unscanned.MergesIndexes ∧
    unscanned.usesFullScan = false ∧ ∃ c cursor m',
      ExecutionContext.create catalog "t" .serializable "" = .ok c ∧
      Cursor.open c unscanned {} = (.ok cursor, m') ∧
      (cursor.drain store.view false {} m').1 = stored.reverse ∧
      (cursor.drain store.view false {} m').2.2.trace.scans = 0 := by
  obtain ⟨c, cursor, m', hcreate, hopen⟩ : ∃ c cursor m',
      ExecutionContext.create catalog "t" .serializable "" = .ok c ∧
        Cursor.open c unscanned {} = (.ok cursor, m') := ⟨_, _, _, rfl, rfl⟩
  have huses : unscanned.usesFullScan = false := by decide +kernel
  refine ⟨unscanned_mergesIndexes, huses, c, cursor, m', hcreate, hopen, ?_, ?_⟩
  · cases hcreate
    cases hopen
    decide +kernel
  · exact
      (Plan.scans_only_as_reported (.inl unscanned_mergesIndexes) huses hopen store.view {}).1 false

/-- The visitors of age one, merged with all visitors. -/
def merged : Plan := .intersection [.indexScan (ageScan 1), .fullScan "t"] (some ["id"])

/-- **The plan reports no full scan, and draining it asks for one.** -/
theorem not_scans_as_reported : ¬∀ (p : Plan) (c : ExecutionContext) (m m' : Monitor)
    (cursor : Cursor), p.usesFullScan = false → Cursor.open c p m = (.ok cursor, m') →
      ∀ v trace, (cursor.drain v false trace m').2.2.trace.scans = trace.scans := by
  intro hreported
  obtain ⟨c, cursor, m', hcreate, hopen⟩ : ∃ c cursor m',
      ExecutionContext.create catalog "t" .serializable "" = .ok c ∧
        Cursor.open c merged {} = (.ok cursor, m') := ⟨_, _, _, rfl, rfl⟩
  have hscans := hreported merged c {} m' cursor (by decide +kernel) hopen store.view {}
  cases hcreate
  cases hopen
  revert hscans
  decide +kernel

end Visits

end RecordLayer
