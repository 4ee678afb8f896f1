import Mathlib.Logic.Relation
import RecordLayer.Cursor.Progress
import RecordLayer.Proofs.Store.Serving

/-!
# What nodes drain to

`Drains` says that a node, stepped until it ends, gives a list of records and no error, whatever was
read before. A cursor over such a node gives exactly these records and is exhausted. The records of
a node are those of its children, put together in the way of the node: a scan gives the rows that it
found, a filter those that pass, a chain the records of its children one after the other.

Every statement about a node is an induction on how its child drains; the shape of the tree above
and below does not matter.
-/

namespace RecordLayer

open Reading

/-- The state after a step, if the step is not the last one. -/
def Pull.next? {σ : Type} : Pull σ → Option σ
  | .emit _ next => some next
  | .busy next => some next
  | .done => none

namespace CursorNode

/-- Stepped until it ends, the node gives these records. -/
inductive Drains (v : StoreView) : CursorNode → List Record → Prop
  | done {node : CursorNode} (h : (node.step v).Gives .done) : Drains v node []
  | busy {node next : CursorNode} {out : List Record} (h : (node.step v).Gives (.busy next))
    (hnext : Drains v next out) : Drains v node out
  | emit {node next : CursorNode} {r : Record} {out : List Record}
    (h : (node.step v).Gives (.emit r next)) (hnext : Drains v next out) : Drains v node (r :: out)

/-! ## States on the way -/

/-- A step of the first state can lead to the second one. -/
def Leads (v : StoreView) (node next : CursorNode) : Prop :=
  ∃ before p after, (ExceptT.run (node.step v)).run before = (.ok p, after) ∧ p.next? = some next

/-- Steps can lead from the first state to the second one. -/
abbrev Comes (v : StoreView) : CursorNode → CursorNode → Prop := Relation.ReflTransGen (Leads v)

theorem step_leads (v : StoreView) (node : CursorNode) :
    (node.step v).Ensures fun p => ∀ next, p.next? = some next → Leads v node next :=
  fun before p after hrun _ hnext => ⟨before, p, after, hrun, hnext⟩

/-- **What every step keeps, every run keeps.** -/
theorem Comes.keeps {v : StoreView} {P : CursorNode → Prop}
    (hstep : ∀ node, P node → (node.step v).Ensures fun p => ∀ next, p.next? = some next → P next)
    {node last : CursorNode} (h : Comes v node last) (hnode : P node) : P last := by
  induction h with
  | refl => exact hnode
  | tail _ hlead ih =>
    obtain ⟨before, p, after, hrun, hnext⟩ := hlead
    exact hstep _ ih before p after hrun _ hnext

/-- **Nodes come to an end,** so what holds of a node whenever it holds of the nodes that a step
gives holds of every node. -/
@[elab_as_elim]
theorem step_induction (v : StoreView) {motive : CursorNode → Prop} (node : CursorNode)
    (step : ∀ node, (∀ p next, (node.step v).Gives p → p.next? = some next → motive next) →
      motive node) : motive node := by
  induction hwork : node.work v using Nat.strongRecOn generalizing node with
  | ind n ih =>
    refine step node fun p next hgives hnext => ?_
    have hbelow : p.Below (work v) (node.work v) := hgives.of_ensures (step_below v node)
    have hless : next.work v < n := by
      rw [← hwork]
      cases p with
      | done => cases hnext
      | busy node' =>
        obtain rfl := Option.some.inj hnext
        exact hbelow
      | emit r node' =>
        obtain rfl := Option.some.inj hnext
        exact hbelow
    exact ih _ hless next rfl

/-! ## From nodes to cursors -/

/-- What pulling a node comes to, given the records that it has left. -/
def PullsTo (v : StoreView) (pull : Reading (Pull CursorNode)) (work : Nat) : List Record → Prop
  | [] => pull.Gives .done
  | r :: rest => ∃ next, pull.Gives (.emit r next) ∧ Drains v next rest ∧ next.work v < work

theorem Drains.pullWithin {v : StoreView} {node : CursorNode} {out : List Record}
    (h : Drains v node out) : ∀ {fuel : Nat}, node.work v ≤ fuel →
      PullsTo v (CursorNode.pullWithin v fuel node) (node.work v) out := by
  induction h with
  | @done node h =>
    intro fuel hfuel
    cases fuel with
    | zero => exact absurd (work_pos v node) (by omega)
    | succ fuel => exact gives_bind h (gives_pure _)
  | @busy node next out h hnext ih =>
    intro fuel hfuel
    have hless : next.work v < node.work v := h.of_ensures (step_below v node)
    cases fuel with
    | zero => exact absurd (work_pos v node) (by omega)
    | succ fuel =>
      have hgo := ih (show next.work v ≤ fuel by omega)
      cases out with
      | nil => exact gives_bind h hgo
      | cons r rest =>
        obtain ⟨next', hgives, hdrains, hwork⟩ := hgo
        exact ⟨next', gives_bind h hgives, hdrains, by omega⟩
  | @emit node next r out h hnext =>
    intro fuel hfuel
    have hless : next.work v < node.work v := h.of_ensures (step_below v node)
    cases fuel with
    | zero => exact absurd (work_pos v node) (by omega)
    | succ fuel => exact ⟨next, gives_bind h (gives_pure _), hnext, hless⟩

theorem Drains.pull {v : StoreView} {node : CursorNode} {out : List Record}
    (h : Drains v node out) : PullsTo v (node.pull v) (node.work v) out :=
  h.pullWithin (Nat.le_refl _)

end CursorNode

namespace Cursor

/-- The outcome of draining a cursor: the records, no error, and the end. -/
def Exhausts (result : List Record × Option ExecutionError × Pulled) (out : List Record) : Prop :=
  result.1 = out ∧ result.2.1 = none ∧ result.2.2.cursor.state = .exhausted

/-- A pull of a cursor over a node without records left exhausts it. -/
theorem next_of_drains_nil {v : StoreView} {c : Cursor} (h : c.node.Drains v [])
    (hstate : c.state = .notStarted ∨ c.state = .active) (trace : ReadTrace) (m : Monitor) :
    ∃ after, c.next v false trace m = ⟨.ok none, { c with state := .exhausted }, after,
      m.event .cursorExhausted c.endFields⟩ := by
  obtain ⟨after, hafter⟩ := h.pull trace
  refine ⟨after, ?_⟩
  unfold next
  rcases hstate with hs | hs <;> simp [hs, hafter]

/-- A pull of a cursor over a node with records left gives the first of them. -/
theorem next_of_drains_cons {v : StoreView} {c : Cursor} {r : Record} {rest : List Record}
    (h : c.node.Drains v (r :: rest)) (hstate : c.state = .notStarted ∨ c.state = .active)
    (trace : ReadTrace) (m : Monitor) :
    ∃ node after, c.next v false trace m =
        ⟨.ok (some r), { c with node, state := .active, emitted := c.emitted + 1 }, after,
          m.count fun x => { x with recordsEmitted := x.recordsEmitted + 1 }⟩ ∧
      node.Drains v rest ∧ node.work v < c.node.work v := by
  obtain ⟨node, hgives, hrest, hless⟩ := h.pull
  obtain ⟨after, hafter⟩ := hgives trace
  refine ⟨node, after, ?_, hrest, hless⟩
  unfold next
  rcases hstate with hs | hs <;> simp [hs, hafter]

theorem drainWithin_exhausts {v : StoreView} : ∀ {out : List Record} {fuel : Nat} {c : Cursor}
    {trace : ReadTrace} {m : Monitor}, c.node.Drains v out →
    c.state = .notStarted ∨ c.state = .active → c.node.work v < fuel →
    Exhausts (drainWithin v false fuel c trace m) out
  | [], fuel + 1, c, trace, m, hdrains, hstate, _ => by
    obtain ⟨after, hnext⟩ := next_of_drains_nil hdrains hstate trace m
    rw [drainWithin, hnext]
    exact ⟨rfl, rfl, rfl⟩
  | r :: rest, fuel + 1, c, trace, m, hdrains, hstate, hfuel => by
    obtain ⟨node, after, hnext, hrest, hless⟩ := next_of_drains_cons hdrains hstate trace m
    rw [drainWithin, hnext]
    have hlater : Exhausts (drainWithin v false fuel
        { c with node, state := .active, emitted := c.emitted + 1 } after
        (m.count fun x => { x with recordsEmitted := x.recordsEmitted + 1 })) rest :=
      drainWithin_exhausts hrest (.inr rfl) (by simp only; omega)
    obtain ⟨hrecords, herror, hlast⟩ := hlater
    exact ⟨congrArg (r :: ·) hrecords, herror, hlast⟩

/-- **A cursor over a node gives the records that the node drains to,** without an error. -/
theorem drain_exhausts {v : StoreView} {c : Cursor} {out : List Record} (h : c.node.Drains v out)
    (hstate : c.state = .notStarted) (trace : ReadTrace) (m : Monitor) :
    Exhausts (c.drain v false trace m) out :=
  drainWithin_exhausts h (.inl hstate) (Nat.lt_succ_self _)

end Cursor

namespace CursorNode

variable {v : StoreView} {t : RecordType} {rows : List Record}

/-! ## Scans -/

theorem drains_openRecords (h : v.Serves t rows) (consistency : Consistency) (rs : List Record) :
    Drains v (.fullScan t.name consistency (some rs)) rs := by
  induction rs with
  | nil =>
    refine .done ?_
    unfold step
    exact gives_bind (gives_pure _) (gives_bind h.endRows_gives (gives_pure _))
  | cons r rs ih =>
    refine .emit ?_ ih
    unfold step
    exact gives_bind (gives_pure _) (gives_bind (h.yieldRow_gives r) (gives_pure _))

/-- **A full scan gives every row.** -/
theorem drains_fullScan (h : v.Serves t rows) (consistency : Consistency) :
    Drains v (.fullScan t.name consistency none) rows := by
  have hscan := h.scanRecords_gives consistency
  cases hrows : rows with
  | nil =>
    rw [hrows] at hscan
    refine .done ?_
    unfold step
    exact gives_bind hscan (gives_bind h.endRows_gives (gives_pure _))
  | cons r rs =>
    rw [hrows] at hscan
    refine .emit ?_ (drains_openRecords h consistency rs)
    unfold step
    exact gives_bind hscan (gives_bind (h.yieldRow_gives r) (gives_pure _))

/-- The record that a scan of an index makes of a stored one. -/
def imageOf (t : RecordType) (i : Index) (covering : Bool) (r : Record) : Record :=
  if covering then i.project t r else r

/-- One step of an open scan of an index. -/
theorem stepEntries_gives (h : v.Serves t rows) {i : Index} (hi : i.recordType = t.name)
    (bounds : ScanBounds) (covering : Bool) (consistency : Consistency) {r : Record}
    (hr : r ∈ rows) (rs : List StoreView.EntryRow) :
    (stepEntries v i bounds covering consistency (i.rowOf t r :: rs)).Gives
      (.emit (imageOf t i covering r) (.indexScan i bounds covering consistency (some rs))) := by
  unfold stepEntries
  refine gives_bind (h.yieldEntry_gives i r) ?_
  cases covering with
  | true => exact gives_pure _
  | false =>
    rw [hi]
    exact gives_bind (h.loadRecord_gives hr consistency) (gives_pure _)

theorem drains_openEntries (h : v.Serves t rows) {i : Index} (hi : i.recordType = t.name)
    (bounds : ScanBounds) (covering : Bool) (consistency : Consistency) {rs : List Record}
    (hrs : ∀ r ∈ rs, r ∈ rows) :
    Drains v (.indexScan i bounds covering consistency (some (rs.map (i.rowOf t))))
      (rs.map (imageOf t i covering)) := by
  induction rs with
  | nil =>
    refine .done ?_
    unfold step
    exact gives_bind (gives_pure _) (gives_bind h.endRows_gives (gives_pure _))
  | cons r rs ih =>
    refine .emit ?_ (ih fun r hr => hrs r (List.mem_cons_of_mem _ hr))
    unfold step
    exact gives_bind (gives_pure _)
      (stepEntries_gives h hi bounds covering consistency (hrs r (by simp)) _)

/-- Opening a scan of an index finds these rows. A scan that is not opened has none. -/
def Opens (v : StoreView) (i : Index) (bounds : ScanBounds) (consistency : Consistency)
    (found : List StoreView.EntryRow) : Prop :=
  (openScan v i bounds consistency).Gives (some found) ∨
    (openScan v i bounds consistency).Gives none ∧ found = []

/-- **A scan of an index gives what it finds when it opens.** -/
theorem drains_indexScan (h : v.Serves t rows) {i : Index} (hi : i.recordType = t.name)
    {bounds : ScanBounds} (covering : Bool) {consistency : Consistency} {rs : List Record}
    (hrs : ∀ r ∈ rs, r ∈ rows)
    (hopen : Opens v i bounds consistency (rs.map (i.rowOf t))) :
    Drains v (.indexScan i bounds covering consistency none)
      (rs.map (imageOf t i covering)) := by
  rcases hopen with hopen | ⟨hopen, hnil⟩
  · cases rs with
    | nil =>
      refine .done ?_
      unfold step
      exact gives_bind hopen (gives_bind h.endRows_gives (gives_pure _))
    | cons r rs =>
      refine .emit ?_ (drains_openEntries h hi bounds covering consistency
        fun r hr => hrs r (List.mem_cons_of_mem _ hr))
      unfold step
      exact gives_bind hopen
        (stepEntries_gives h hi bounds covering consistency (hrs r (by simp)) _)
  · rw [List.map_eq_nil_iff.1 hnil]
    refine .done ?_
    unfold step
    exact gives_bind hopen (gives_pure _)

/-- What a scan by key finds when it opens. -/
theorem openScan_keys_gives (h : v.Serves t rows) {i : Index}
    (hi : i ∈ v.catalog.plannableIndexes t.name) (range : KeyRange) (consistency : Consistency) :
    Opens v i (.keys range) consistency
      (((i.sorted t rows).filter fun r => range.contains (i.keyOf t r)).map (i.rowOf t)) :=
  .inl (gives_bind (gives_pure _) (gives_bind (h.scanIndex_gives hi range consistency)
    (gives_pure _)))

/-! ## Filters and limits -/

/-- **A filter gives the records of its child that pass.** -/
theorem Drains.filter {child : CursorNode} {out : List Record} (h : Drains v child out)
    {tests : List CompiledFilter} {p : Record → Bool}
    (hp : ∀ r ∈ out, (CompiledFilter.allAccept v r tests).Gives (p r)) :
    Drains v (.filter child tests) (out.filter p) := by
  induction h with
  | done h =>
    refine .done ?_
    unfold step
    exact gives_bind h (gives_pure _)
  | busy h hnext ih =>
    refine .busy ?_ (ih hp)
    unfold step
    exact gives_bind h (gives_pure _)
  | @emit node next r out h hnext ih =>
    have hr := hp r (by simp)
    have hrest := ih fun r hr => hp r (List.mem_cons_of_mem _ hr)
    cases hpr : p r with
    | true =>
      rw [hpr] at hr
      rw [List.filter_cons_of_pos hpr]
      refine .emit ?_ hrest
      unfold step
      exact gives_bind h (gives_bind hr (gives_pure _))
    | false =>
      rw [hpr] at hr
      rw [List.filter_cons_of_neg (by simp [hpr])]
      refine .busy ?_ hrest
      unfold step
      exact gives_bind h (gives_bind hr (gives_pure _))

/-- **A limit gives the first records of its child.** -/
theorem Drains.limit {child : CursorNode} {out : List Record} (h : Drains v child out) (n : Nat) :
    Drains v (.limit child n) (out.take n) := by
  -- a limit that is used up ends without asking its child
  have hzero : ∀ child : CursorNode, Drains v (.limit child 0) [] := fun child => by
    refine .done ?_
    unfold step
    exact gives_pure _
  induction h generalizing n with
  | done h =>
    rw [List.take_nil]
    refine .done ?_
    unfold step
    split
    · exact gives_pure _
    · exact gives_bind h (gives_pure _)
  | busy h hnext ih =>
    cases n with
    | zero => exact hzero _
    | succ n =>
      refine .busy ?_ (ih (n + 1))
      unfold step
      exact gives_bind h (gives_pure _)
  | emit h hnext ih =>
    cases n with
    | zero => exact hzero _
    | succ n =>
      refine .emit ?_ (ih n)
      unfold step
      exact gives_bind h (gives_pure _)

/-! ## Chains -/

/-- The records that are left out by no deduplication. -/
def keep (dedup : Option Dedup) : List Record → List Record
  | [] => []
  | r :: rest =>
    match Dedup.check? dedup r with
    | (true, dedup) => keep dedup rest
    | (false, dedup) => r :: keep dedup rest

theorem keep_cons (dedup : Option Dedup) (r : Record) (rest : List Record) :
    keep dedup (r :: rest) =
      if (Dedup.check? dedup r).1 then keep (Dedup.check? dedup r).2 rest
      else r :: keep (Dedup.check? dedup r).2 rest := by
  rw [keep]
  cases hc : Dedup.check? dedup r with
  | mk repeated dedup' => cases repeated <;> rfl

/-- A node that checks a record, and gives it unless it is to be left out, drains
to what is kept. -/
theorem drains_of_checked {node next : CursorNode} {dedup : Option Dedup} {r : Record}
    {rest : List Record}
    (h : (node.step v).Gives
      (if (Dedup.check? dedup r).1 then .busy next else .emit r next))
    (hnext : Drains v next (keep (Dedup.check? dedup r).2 rest)) :
    Drains v node (keep dedup (r :: rest)) := by
  rw [keep_cons]
  cases hrepeated : (Dedup.check? dedup r).1 with
  | true =>
    rw [hrepeated] at h
    exact .busy h hnext
  | false =>
    rw [hrepeated] at h
    exact .emit h hnext

/-- **A step of a list of nodes gives the next of their records,** or none; the nodes that are left
give the records that are left. -/
theorem stepHead_goes {children : List (CursorNode × List Record)}
    (h : ∀ p ∈ children, Drains v p.1 p.2) :
    children = [] ∨ ∃ children' : List (CursorNode × List Record),
      (∀ p ∈ children', Drains v p.1 p.2) ∧
        ((stepHead v (children.map (·.1))).Gives (.busy (children'.map (·.1))) ∧
            children.flatMap (·.2) = children'.flatMap (·.2) ∨
          ∃ r, (stepHead v (children.map (·.1))).Gives (.emit r (children'.map (·.1))) ∧
            children.flatMap (·.2) = r :: children'.flatMap (·.2)) := by
  cases children with
  | nil => exact .inl rfl
  | cons child rest =>
    obtain ⟨node, out⟩ := child
    have hnode : Drains v node out := h (node, out) (by simp)
    have hrest : ∀ p ∈ rest, Drains v p.1 p.2 := fun p hp => h p (List.mem_cons_of_mem _ hp)
    rw [List.map_cons, stepHead]
    refine .inr ?_
    -- a child that has ended is dropped, any other stays in front with what is left of its output
    cases hnode with
    | done hp => exact ⟨rest, hrest, .inl ⟨gives_bind hp (gives_pure _), rfl⟩⟩
    | @busy _ next _ hp hnext =>
      exact ⟨(next, out) :: rest, List.forall_mem_cons.2 ⟨hnext, hrest⟩,
        .inl ⟨gives_bind hp (gives_pure _), rfl⟩⟩
    | @emit _ next r out hp hnext =>
      exact ⟨(next, out) :: rest, List.forall_mem_cons.2 ⟨hnext, hrest⟩,
        .inr ⟨r, gives_bind hp (gives_pure _), rfl⟩⟩

/-- A chain checks the record that its first child gives. -/
theorem step_chain_gives {children children' : List CursorNode} (dedup : Option Dedup) {r : Record}
    (h : (stepHead v children).Gives (.emit r children')) :
    (step v (.chain children dedup)).Gives
      (if (Dedup.check? dedup r).1 then .busy (.chain children' (Dedup.check? dedup r).2)
        else .emit r (.chain children' (Dedup.check? dedup r).2)) := by
  unfold step
  refine gives_bind h ?_
  cases hc : Dedup.check? dedup r with
  | mk repeated dedup' => cases repeated <;> simp only [hc] <;> exact gives_pure _

/-- **A chain gives the records of its children in turn,** without those that are left out. -/
theorem drains_chain {children : List (CursorNode × List Record)} (dedup : Option Dedup)
    (h : ∀ p ∈ children, Drains v p.1 p.2) :
    Drains v (.chain (children.map (·.1)) dedup) (keep dedup (children.flatMap (·.2))) := by
  generalize hnode : CursorNode.chain (children.map (·.1)) dedup = node
  induction node using step_induction v generalizing children dedup with
  | step node ih =>
    subst hnode
    rcases stepHead_goes h with rfl | ⟨children', hnext, ⟨hhead, hout⟩ | ⟨r, hhead, hout⟩⟩
    · refine .done ?_
      unfold step stepHead
      exact gives_bind (gives_pure _) (gives_pure _)
    · have hgives : (step v (.chain (children.map (·.1)) dedup)).Gives
          (.busy (.chain (children'.map (·.1)) dedup)) := by
        unfold step
        exact gives_bind hhead (gives_pure _)
      rw [hout]
      exact .busy hgives (ih _ _ hgives rfl dedup hnext rfl)
    · have hgives := step_chain_gives dedup hhead
      rw [hout]
      exact drains_of_checked hgives (ih _ _ hgives (by split <;> rfl) _ hnext rfl)

/-! ## Look-ups of values -/

/-- The look-up of one value. -/
abbrev lookup (index : Index) (consistency : Consistency) (value : Value) : CursorNode :=
  .indexScan index (.keys { equal := [value] }) false consistency none

/-- The values from a place on, cut where the next batch ends. -/
theorem drop_eq_batch {values : List Value} {next stop : Nat} (hnext : next < stop)
    (hlast : stop ≤ values.length) :
    values.drop next = (values.take stop).drop next ++ values.drop stop := by
  have hcut := congrArg (List.drop next) (List.take_append_drop stop values)
  rw [List.drop_append, List.length_take, Nat.min_eq_left hlast,
    Nat.sub_eq_zero_of_le (Nat.le_of_lt hnext), List.drop_zero] at hcut
  exact hcut.symm

/-- Without a look-up that is still to be made, a join of look-ups opens its next batch. -/
theorem step_inJoin_gives (index : Index) {values : List Value} (batchSize : Nat)
    (consistency : Consistency) {next : Nat} (hmore : next < values.length) :
    (step v (.inJoin index values batchSize consistency next [])).Gives
      (.busy (.inJoin index values batchSize consistency
        (min (next + max 1 batchSize) values.length)
        (((values.take (min (next + max 1 batchSize) values.length)).drop next).map
          (lookup index consistency)))) := by
  unfold step stepHead
  refine gives_bind (gives_pure _) ?_
  dsimp only
  rw [if_neg (Nat.not_le.2 hmore)]
  exact gives_pure _

/-- **Look-ups give what each value gives, in turn,** whatever the size of a batch. -/
theorem drains_inJoin {index : Index} {values : List Value} {batchSize : Nat}
    {consistency : Consistency} {found : Value → List Record}
    (h : ∀ value ∈ values, Drains v (lookup index consistency value) (found value)) {next : Nat}
    {batch : List (CursorNode × List Record)} (hbatch : ∀ p ∈ batch, Drains v p.1 p.2) :
    Drains v (.inJoin index values batchSize consistency next (batch.map (·.1)))
      (batch.flatMap (·.2) ++ (values.drop next).flatMap found) := by
  generalize hnode : CursorNode.inJoin index values batchSize consistency next
    (batch.map (·.1)) = node
  induction node using step_induction v generalizing next batch with
  | step node ih =>
    subst hnode
    rcases stepHead_goes hbatch with rfl | ⟨batch', hnext, ⟨hhead, hout⟩ | ⟨r, hhead, hout⟩⟩
    · -- the batch has ended: there are no more values, or the next batch is opened
      by_cases hend : values.length ≤ next
      · rw [List.drop_of_length_le hend]
        refine .done ?_
        unfold step
        rw [List.map_nil, stepHead]
        refine gives_bind (gives_pure _) ?_
        dsimp only
        rw [if_pos hend]
        exact gives_pure _
      · -- the batch has ended, and the next one is opened
        have hgives := step_inJoin_gives (v := v) index batchSize consistency (Nat.not_le.1 hend)
        generalize hstop : min (next + max 1 batchSize) values.length = stop at hgives
        have hopened : ∀ p ∈ ((values.take stop).drop next).map fun value =>
            (lookup index consistency value, found value), Drains v p.1 p.2 := by
          intro p hp
          obtain ⟨value, hvalue, rfl⟩ := List.mem_map.1 hp
          exact h value (List.mem_of_mem_take (List.mem_of_mem_drop hvalue))
        have hgo := ih _ _ hgives rfl hopened (by rw [List.map_map]; rfl)
        rw [List.flatMap_map] at hgo
        rw [List.flatMap_nil, List.nil_append,
          drop_eq_batch (show next < stop by omega) (show stop ≤ values.length by omega),
          List.flatMap_append]
        exact .busy hgives hgo
    · -- a child of the batch took a step without a record
      have hgives : (step v (.inJoin index values batchSize consistency next
          (batch.map (·.1)))).Gives
          (.busy (.inJoin index values batchSize consistency next (batch'.map (·.1)))) := by
        unfold step
        exact gives_bind hhead (gives_pure _)
      rw [hout]
      exact .busy hgives (ih _ _ hgives rfl hnext rfl)
    · -- a child of the batch gave a record
      have hgives : (step v (.inJoin index values batchSize consistency next
          (batch.map (·.1)))).Gives
          (.emit r (.inJoin index values batchSize consistency next (batch'.map (·.1)))) := by
        unfold step
        exact gives_bind hhead (gives_pure _)
      rw [hout]
      exact .emit hgives (ih _ _ hgives rfl hnext rfl)

end CursorNode

end RecordLayer
