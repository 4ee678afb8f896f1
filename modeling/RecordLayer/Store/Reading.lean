import RecordLayer.Store.View

/-!
# What readings guarantee

A reading may fail and depends on the trace so far, but what it gives can still be known to have a
property whatever the trace and the faults. Such guarantees compose step by step.
-/

namespace RecordLayer.Reading

/-- Running one reading after another: a failure of the first one is the failure of both. -/
theorem run_bind {α β : Type} (x : Reading α) (f : α → Reading β) (before : ReadTrace) :
    (ExceptT.run (x >>= f)).run before =
      match (ExceptT.run x).run before with
      | (.ok a, mid) => (ExceptT.run (f a)).run mid
      | (.error e, mid) => (.error e, mid) := by
  simp only [ExceptT.run_bind, StateT.run_bind]
  cases (ExceptT.run x).run before with
  | mk result mid => cases result <;> rfl

/-- What is made of a result reads nothing. -/
theorem run_bind_pure {α β : Type} (x : Reading α) (f : α → β) (before : ReadTrace) :
    (ExceptT.run (x >>= fun a => (pure (f a) : Reading β))).run before =
      match (ExceptT.run x).run before with
      | (.ok a, after) => (.ok (f a), after)
      | (.error e, after) => (.error e, after) := by
  rw [run_bind]
  obtain ⟨result, after⟩ := (ExceptT.run x).run before
  cases result <;> rfl

/-- Every value that a reading can give has a property. -/
def Ensures {α : Type} (x : Reading α) (P : α → Prop) : Prop :=
  ∀ before a after, (ExceptT.run x).run before = (.ok a, after) → P a

theorem ensures_pure {α : Type} {P : α → Prop} {a : α} (h : P a) :
    Ensures (pure a) P := by
  intro before b after hrun
  cases hrun
  exact h

theorem ensures_bind {α β : Type} {x : Reading α} {f : α → Reading β} {P : α → Prop}
    {Q : β → Prop} (hx : x.Ensures P) (hf : ∀ a, P a → (f a).Ensures Q) :
    Ensures (x >>= f) Q := by
  intro before b after hrun
  rw [run_bind] at hrun
  cases hxr : (ExceptT.run x).run before with
  | mk result mid =>
    rw [hxr] at hrun
    cases result with
    | ok a => exact hf a (hx _ _ _ hxr) _ _ _ hrun
    | error e => cases hrun

/-- The guarantee of a second reading, where nothing is asked of the first one. -/
theorem ensures_then {α β : Type} {x : Reading α} {f : α → Reading β} {Q : β → Prop}
    (hf : ∀ a, (f a).Ensures Q) : Ensures (x >>= f) Q :=
  ensures_bind (P := fun _ => True) (fun _ _ _ _ => trivial) fun a _ => hf a

theorem Ensures.mono {α : Type} {x : Reading α} {P Q : α → Prop} (h : x.Ensures P)
    (hPQ : ∀ a, P a → Q a) : x.Ensures Q :=
  fun before a after hrun => hPQ a (h before a after hrun)

end RecordLayer.Reading
