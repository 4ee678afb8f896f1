import Mathlib.Data.List.Forall2
import RecordLayer.Proofs.Cursor.Answers
import RecordLayer.Proofs.Cursor.Faults
import RecordLayer.Proofs.Cursor.StableMerge

/-!
# Joins end with the first child that runs dry

A join asks one child at a time, the first one whose head it does not know. Once such a child has no
more records, no key that is still to come can be in every child, so the join ends there: in that
very step, without reading anything for another child, and for good.

That no record is lost is the exactness of joins; what is added here is what a step reads, in every
state that a join comes to.
-/

namespace RecordLayer

open Reading

namespace CursorNode

/-- The child that a join asks in its next step, unless it knows every head. -/
def asked? : CursorNode → Option CursorNode
  | .join children _ heads => (heads.findIdx? (·.isNone)).bind (children[·]?)
  | _ => none

/-- A join of children on their way: each of them is in a state that it comes to, and has a
place for a head. -/
def Joins (v : StoreView) (starts : List CursorNode) (key : List Nat) (node : CursorNode) : Prop :=
  ∃ children heads, node = .join children key heads ∧ List.Forall₂ (Comes v) starts children ∧
    heads.length = children.length

/-- The node ends just where the child that it asks ends, and reads what that child reads. -/
structure EndsWithChild (v : StoreView) (node : CursorNode) : Prop where
  ends : ∀ before, ((ExceptT.run (node.step v)).run before).1 = .ok .done ↔
    ∃ child, node.asked? = some child ∧ ((ExceptT.run (child.step v)).run before).1 = .ok .done
  reads : ∀ before, ((ExceptT.run (node.step v)).run before).2 =
    match node.asked? with
    | none => before
    | some child => ((ExceptT.run (child.step v)).run before).2

variable {v : StoreView} {children starts : List CursorNode} {key : List Nat}
  {heads : List (Option (List Value × Record))}

/-! ## Steps of a join -/

/-- A join that knows every head goes on without asking a child. -/
theorem next_of_known (v : StoreView) (children : List CursorNode) (key : List Nat)
    {known : List (List Value × Record)} (hne : known ≠ []) :
    ∃ p heads, step v (.join children key (known.map some)) = pure p ∧
      p.next? = some (.join children key heads) ∧ heads.length = known.length := by
  obtain ⟨first, others, rfl⟩ := List.exists_cons_of_ne_nil hne
  obtain ⟨least, hleast⟩ := exists_leastKey first others
  refine ⟨_, keptHeads (first :: others) least, step_join_known v children key hleast, ?_,
    List.length_map _⟩
  split <;> rfl

/-- One of the children goes one step further. -/
theorem comes_set {i : Nat} {child next : CursorNode}
    (h : List.Forall₂ (Comes v) starts children) (hchild : children[i]? = some child)
    (hlead : Leads v child next) : List.Forall₂ (Comes v) starts (children.set i next) := by
  induction h generalizing i with
  | nil => simp at hchild
  | cons hcomes hrest ih =>
    -- the place is the first one or lies behind it
    cases i with
    | zero =>
      obtain rfl := Option.some.inj hchild
      exact .cons (hcomes.tail hlead) hrest
    | succ i => exact .cons hcomes (ih hchild)

theorem Joins.known_ne_nil (hne : starts ≠ []) (hcomes : List.Forall₂ (Comes v) starts children)
    {known : List (List Value × Record)} (hlen : (known.map some).length = children.length) :
    known ≠ [] := by
  rintro rfl
  have hnil : children = [] := List.eq_nil_of_length_eq_zero hlen.symm
  rw [hnil, List.forall₂_nil_right_iff] at hcomes
  exact hne hcomes

/-- **A step of a join takes a step of the child that it asks, and of no other.** -/
theorem Joins.step (hne : starts ≠ []) (node : CursorNode) (h : Joins v starts key node) :
    (node.step v).Ensures fun p => ∀ next, p.next? = some next → Joins v starts key next := by
  obtain ⟨children, heads, rfl, hcomes, hlen⟩ := h
  -- a child moves in the first case only; comparing heads leaves the children as they are
  rcases Joining.asked_or_known hlen with ⟨i, child, hi, hchild⟩ | ⟨known, rfl⟩
  · rw [step_join_asked hi hchild]
    refine ensures_bind (step_leads v child) fun p hp => ensures_pure fun next hnext => ?_
    cases p with
    | done => cases hnext
    | busy child' =>
      obtain rfl := Option.some.inj hnext
      exact ⟨_, _, rfl, comes_set hcomes hchild (hp child' rfl), by simpa using hlen⟩
    | emit r child' =>
      obtain rfl := Option.some.inj hnext
      exact ⟨_, _, rfl, comes_set hcomes hchild (hp child' rfl), by simpa using hlen⟩
  · obtain ⟨p, heads, hstep, hnext, hsame⟩ :=
      next_of_known v children key (Joins.known_ne_nil hne hcomes hlen)
    rw [hstep]
    refine ensures_pure fun next hp => ?_
    obtain rfl := Option.some.inj (hnext.symm.trans hp)
    exact ⟨_, _, rfl, hcomes, by rw [hsame, ← hlen, List.length_map]⟩

/-- **Where a join stands decides what its step reads and whether it ends.** -/
theorem Joins.endsWithChild (hne : starts ≠ []) {node : CursorNode}
    (h : Joins v starts key node) : EndsWithChild v node := by
  obtain ⟨children, heads, rfl, hcomes, hlen⟩ := h
  rcases Joining.asked_or_known hlen with ⟨i, child, hi, hchild⟩ | ⟨known, rfl⟩
  · have hasked : asked? (.join children key heads) = some child := by
      rw [asked?, hi]
      exact hchild
    refine ⟨fun before => ?_, fun before => ?_⟩
    · rw [step_join_asked hi hchild, run_bind_pure, hasked]
      simp only [Option.some.injEq, exists_eq_left']
      obtain ⟨result, after⟩ := (ExceptT.run (child.step v)).run before
      cases result with
      | error e => rfl
      | ok p => cases p <;> simp [answered]
    · rw [step_join_asked hi hchild, run_bind_pure, hasked]
      dsimp only
      obtain ⟨result, after⟩ := (ExceptT.run (child.step v)).run before
      cases result <;> rfl
  · -- no child is asked, and such a step does not end the join
    obtain ⟨p, heads, hstep, hnext, -⟩ :=
      next_of_known v children key (Joins.known_ne_nil hne hcomes hlen)
    -- the first child without a known head is asked
    have hasked : asked? (.join children key (known.map some)) = none := by
      have hnone : (known.map some).findIdx? (·.isNone) = none := by simp
      rw [asked?, hnone]
      rfl
    refine ⟨fun before => ?_, fun before => ?_⟩
    · have hp : p ≠ .done := by
        rintro rfl
        cases hnext
      have hresult :
          ((ExceptT.run (pure p : Reading (Pull CursorNode))).run before).1 = .ok p := rfl
      rw [hstep, hasked, hresult]
      simpa using hp
    · rw [hstep, hasked]
      rfl

/-! ## What a join gives -/

/-- The children of a join that has not started are where they start. -/
theorem joins_startJoin (v : StoreView) (children : List CursorNode) (key : List Nat) :
    Joins v children key (startJoin children key) :=
  ⟨children, _, rfl, List.forall₂_same.2 fun _ _ => .refl, List.length_map _⟩

end CursorNode

namespace Cursor

/-- **The pulls of a cursor give the records of its node one after the other.** Behind the last
record, one more pull finds the end, and no later one does anything. -/
theorem pullAt_of_drains {v : StoreView} {out : List Record} {c : Cursor} (h : c.node.Drains v out)
    (hstate : c.state = .notStarted ∨ c.state = .active) (trace : ReadTrace) (m : Monitor)
    (n : Nat) :
    (c.pullAt v (fun _ => false) trace m n).result = .ok out[n]? ∧
      (out.length ≤ n → c.pullAt v (fun _ => false) trace m n =
        c.pullAt v (fun _ => false) trace m out.length) := by
  induction out generalizing c trace m n with
  | nil =>
    -- this pull finds the end, and an exhausted cursor stays as it is
    obtain ⟨after, hnext⟩ := next_of_drains_nil h hstate trace m
    have hstill : c.pullAt v (fun _ => false) trace m n =
        c.pullAt v (fun _ => false) trace m 0 := by
      cases n with
      | zero => rfl
      | succ n =>
        rw [pullAt_succ hnext, pullAt_exhausted rfl, pullAt, hnext]
    refine ⟨?_, fun _ => hstill⟩
    rw [hstill, pullAt, hnext]
    rfl
  | cons r rest ih =>
    obtain ⟨node, after, hnext, hrest, -⟩ := next_of_drains_cons h hstate trace m
    cases n with
    | zero =>
      refine ⟨?_, fun hle => absurd hle (Nat.not_succ_le_zero _)⟩
      rw [pullAt, hnext]
      rfl
    | succ n =>
      rw [pullAt_succ hnext, List.length_cons, pullAt_succ hnext]
      obtain ⟨hresult, hend⟩ := ih
        (c := { c with node, state := .active, emitted := c.emitted + 1 })
        hrest (.inr rfl) after _ n
      exact ⟨hresult, fun hle => hend (Nat.le_of_succ_le_succ hle)⟩

end Cursor

namespace CursorNode

/-- **A join is exact and ends with the first child that runs dry.** Over children whose keys
strictly ascend, it gives the records of the first child whose key occurs in every child, ascending
on the key. In every state on the way, a step asks one child at most and reads what that child
reads, and the join ends just where this child does. Pulls of a cursor give the records one after
the other; behind them one more pull finds the end, and nothing is read or asked after it. -/
theorem join_exact {v : StoreView} {children : List (CursorNode × List Record)} {key : List Nat}
    (hne : children ≠ []) (h : ∀ p ∈ children, Drains v p.1 p.2)
    (hasc : ∀ p ∈ children, Ascends key p.2) :
    Drains v (startJoin (children.map (·.1)) key) (shared key (children.map (·.2))) ∧
      Ascends key (shared key (children.map (·.2))) ∧
      (∀ node, Comes v (startJoin (children.map (·.1)) key) node →
        Joins v (children.map (·.1)) key node ∧ EndsWithChild v node) ∧
      ∀ c : Cursor, c.node = startJoin (children.map (·.1)) key → c.state = .notStarted →
        ∀ trace m n,
          (c.pullAt v (fun _ => false) trace m n).result =
              .ok (shared key (children.map (·.2)))[n]? ∧
            ((shared key (children.map (·.2))).length ≤ n →
              c.pullAt v (fun _ => false) trace m n =
                c.pullAt v (fun _ => false) trace m (shared key (children.map (·.2))).length) := by
  have hdrains := drains_join h hne hasc
  have hstarts : children.map (·.1) ≠ [] := by simpa using hne
  refine ⟨hdrains, ?_, fun node hcomes => ?_, fun c hnode hstate trace m n => ?_⟩
  · obtain ⟨first, others, rfl⟩ := List.exists_cons_of_ne_nil hne
    exact (hasc first (by simp)).sublist List.filter_sublist
  · -- how far the join has come with its children is an invariant, and it alone decides the end
    have hjoins := hcomes.keeps (Joins.step hstarts) (joins_startJoin v _ key)
    exact ⟨hjoins, hjoins.endsWithChild hstarts⟩
  · rw [← hnode] at hdrains
    exact Cursor.pullAt_of_drains hdrains (.inl hstate) trace m n

end CursorNode

/-! ## Two streams of items -/

namespace Sample

open CursorNode

/-- Two streams that share their second items only, and go on behind them. -/
def pairedStreams : List (CursorNode × List Record) := [
  itemStream [⟨[.int 1, .int 4]⟩, ⟨[.int 2, .int 9]⟩, ⟨[.int 5, .int 1]⟩],
  itemStream [⟨[.int 0, .int 7]⟩, ⟨[.int 2, .int 9]⟩, ⟨[.int 3, .int 3]⟩, ⟨[.int 4, .int 3]⟩]]

theorem join_exact_items : pairedStreams ≠ [] ∧ (∀ p ∈ pairedStreams, Drains restocked p.1 p.2) ∧
    (∀ p ∈ pairedStreams, Ascends [0] p.2) ∧
    Drains restocked (startJoin (pairedStreams.map (·.1)) [0]) [⟨[.int 2, .int 9]⟩] := by
  have hdrains : ∀ p ∈ pairedStreams, Drains restocked p.1 p.2 := by
    simp [pairedStreams, drains_itemStream]
  have hasc : ∀ p ∈ pairedStreams, Ascends [0] p.2 := by
    unfold Ascends
    decide
  have hne : pairedStreams ≠ [] := List.cons_ne_nil _ _
  obtain ⟨hjoin, -⟩ := join_exact hne hdrains hasc
  exact ⟨hne, hdrains, hasc, hjoin⟩

end Sample

end RecordLayer
