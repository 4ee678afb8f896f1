import RecordLayer.Proofs.Record

/-!
# Merge keys are sound

Lists of records can be merged on a key if each of them is sorted by it, and all that is known of a
list is its order. A key that is found for some orders serves whatever lists are in these orders.

A test that looks at fields alone cannot accept more: if no field is repeated, there are two valid
records in the order that descend on a key which the order does not satisfy. One of them stands out
in the first field of the key with which the order does not go on, the other one in the field that
the order has in its place.
-/

namespace RecordLayer

/-! ## Two records that differ in two fields -/

/-- A list that another one does not begin with parts from it at some element. -/
theorem exists_parting {α : Type} [DecidableEq α] {as bs : List α} (h : ¬as <+: bs) :
    ∃ common a as' bs', as = common ++ a :: as' ∧ bs = common ++ bs' ∧ bs'.head? ≠ some a := by
  induction as generalizing bs with
  | nil => exact absurd List.nil_prefix h
  | cons a as ih =>
    by_cases hhead : bs.head? = some a
    · obtain ⟨bs, rfl⟩ := List.head?_eq_some_iff.1 hhead
      obtain ⟨common, x, as', bs', rfl, rfl, hne⟩ :=
        ih fun hprefix => h ((List.prefix_cons_inj a).2 hprefix)
      exact ⟨a :: common, x, as', bs', rfl, rfl, hne⟩
    · exact ⟨[], a, as, bs, rfl, rfl, hhead⟩

namespace RecordType

variable {t : RecordType} {field : String} {f? g? : Option String}

/-- The record that holds the larger value in one field, if in any. -/
def standout (t : RecordType) (field? : Option String) : Record :=
  t.sample fun f => field? == some f

theorem valueOf_standout (hf : f? ≠ some field) (hg : g? ≠ some field) :
    t.valueOf (t.standout f?) field = t.valueOf (t.standout g?) field :=
  valueOf_sample_eq ((beq_eq_false_iff_ne.2 hf).trans (beq_eq_false_iff_ne.2 hg).symm)

/-- The record that stands out in the first field is the larger one. -/
theorem compareBy_cons_standout (h : t.hasField field = true) (hf : f? ≠ some field)
    (rest : List String) :
    t.compareBy (field :: rest) (t.standout f?) (t.standout (some field)) = .lt := by
  have hless : (t.valueOf (t.standout f?) field).compare
      (t.valueOf (t.standout (some field)) field) = .lt :=
    compare_valueOf_sample h (beq_eq_false_iff_ne.2 hf) (beq_self_eq_true (some field))
  rw [compareBy_cons, hless]
  rfl

end RecordType

namespace RowOrder

variable {t : RecordType} {o : RowOrder} {target : List String}

/-- **Two valid records in an order descend on a key that the order does not satisfy.** -/
theorem exists_descending (hunsatisfied : o.satisfies target = false)
    (hkey : (o.varying target).Nodup) (hfields : (o.varying o.fields).Nodup)
    (hdeclared : ∀ f ∈ o.varying target ++ o.varying o.fields, t.hasField f = true) :
    ∃ a b : Record, t.validate a = .ok () ∧ t.validate b = .ok () ∧ o.Sorts t [a, b] ∧
      t.compareBy target a b = .gt := by
  obtain ⟨common, x, rest, others, hsplit, hsplit', hne⟩ := exists_parting fun hprefix =>
    Bool.eq_false_iff.1 hunsatisfied (List.isPrefixOf_iff_prefix.2 hprefix)
  -- Constants are in neither list, and `common` holds neither field in which a record stands out.
  have hx : x ∈ o.varying target := hsplit ▸ List.mem_append_right _ (by simp)
  have hothers : ∀ f, others.head? = some f → f ∈ o.varying o.fields := fun f hf =>
    hsplit' ▸ List.mem_append_right _ (List.mem_of_head? hf)
  have hcommon : ∀ f ∈ common,
      t.valueOf (t.standout (some x)) f = t.valueOf (t.standout others.head?) f := fun f hf => by
    have hnex := (List.nodup_append.1 (hsplit ▸ hkey)).2.2 f hf x (by simp)
    have hnehead := (List.nodup_append.1 (hsplit' ▸ hfields)).2.2 f hf f
    exact RecordType.valueOf_standout (fun heq => hnex (Option.some.inj heq).symm)
      fun heq => hnehead (List.mem_of_head? heq) rfl
  have hconstant : ∀ f ∈ o.constants,
      t.valueOf (t.standout (some x)) f = t.valueOf (t.standout others.head?) f := fun f hf =>
    RecordType.valueOf_standout (fun heq => not_mem_constants (Option.some.inj heq ▸ hx) hf)
      fun heq => not_mem_constants (hothers f heq) hf
  refine ⟨t.standout (some x), t.standout others.head?, RecordType.validate_sample t _,
    RecordType.validate_sample t _, sorts_pair hconstant ?_, ?_⟩
  · rw [← compareBy_varying hconstant, hsplit', RecordType.compareBy_append_of_eq hcommon]
    cases others with
    | nil => simp [RecordType.compareBy]
    | cons y others =>
      rw [List.head?_cons, RecordType.compareBy_cons_standout
        (hdeclared y (List.mem_append_right _ (hothers y rfl))) (Ne.symm hne)]
      simp
  · rw [← compareBy_varying hconstant, hsplit, RecordType.compareBy_append_of_eq hcommon,
      RecordType.compareBy_swap, RecordType.compareBy_cons_standout
        (hdeclared x (List.mem_append_left _ hx)) hne]
    rfl

/-! ## Sound keys -/

/-- **A shared merge key ends in the primary key, and lists in the orders are sorted by it.** More
generally records in an order that satisfies a key are sorted by the key, whichever fields are
constant or repeated; and the test is exact where no field that varies is repeated or unknown. -/
theorem sharedMergeKey_sorts (t : RecordType) :
    (∀ (orders : List (Option RowOrder)) (outs : Nat → List Record) (primaryKey : String)
        (key : List String),
      (∀ (i : Nat) (order : RowOrder), orders[i]? = some (some order) → order.Sorts t (outs i)) →
      sharedMergeKey orders primaryKey = some key →
      key.getLast? = some primaryKey ∧
        ∀ i < orders.length, (outs i).Pairwise fun a b => t.compareBy key a b ≠ .gt) ∧
    (∀ (order : RowOrder) (target : List String), order.satisfies target = true →
      ∀ out, order.Sorts t out → out.Pairwise fun a b => t.compareBy target a b ≠ .gt) ∧
    ∀ (order : RowOrder) (target : List String),
      (order.varying target).Nodup → (order.varying order.fields).Nodup →
      (∀ f ∈ order.varying target ++ order.varying order.fields, t.hasField f = true) →
      order.satisfies target = false →
      ∃ a b : Record, t.validate a = .ok () ∧ t.validate b = .ok () ∧ order.Sorts t [a, b] ∧
        t.compareBy target a b = .gt := by
  refine ⟨fun orders outs primaryKey key houts hkey => ?_, fun order target hsat out hout =>
    hout.of_satisfies hsat, fun order target hkey hfields hdeclared hunsatisfied =>
    exists_descending hunsatisfied hkey hfields hdeclared⟩
  obtain ⟨hlast, hsatisfied⟩ := sharedMergeKey_spec hkey
  refine ⟨hlast, fun i hi => ?_⟩
  obtain ⟨order, horder, hsat⟩ := hsatisfied orders[i] (List.getElem_mem hi)
  exact (houts i order (horder ▸ List.getElem?_eq_getElem hi)).of_satisfies hsat

/-- Residents with a number, a city and an age. -/
def resident : RecordType where
  name := "resident"
  fields := [⟨"id", .int, true⟩, ⟨"city", .text, false⟩, ⟨"age", .int, false⟩]
  primaryKey := "id"
  names_nodup := by decide
  primaryKey_mem := by decide

/-- The residents of one city by age, and some residents by age. -/
def residents (i : Nat) : List Record :=
  [[⟨[.int 1, .text "Oslo", .int 30]⟩, ⟨[.int 3, .text "Oslo", .int 30]⟩,
      ⟨[.int 2, .text "Oslo", .int 40]⟩],
    [⟨[.int 4, .text "Bergen", .int 20]⟩, ⟨[.int 1, .text "Oslo", .int 30]⟩]].getD i []

/-- The orders of the two lists, one with a constant and both with a field that is repeated. -/
def residentOrders : List (Option RowOrder) :=
  [some ⟨["age", "city", "age", "id"], ["city"]⟩, some ⟨["age", "age", "id"], []⟩]

theorem sharedMergeKey_sorts_residents :
    sharedMergeKey residentOrders "id" = some ["age", "age", "id"] ∧
    (∀ i < 2, (residents i).Pairwise fun a b => resident.compareBy ["age", "age", "id"] a b ≠ .gt) ∧
    ((residents 0).Pairwise fun a b => resident.compareBy ["city", "age"] a b ≠ .gt) ∧
    ∃ a b : Record, (RowOrder.mk ["age", "id"] []).Sorts resident [a, b] ∧
      resident.compareBy ["id"] a b = .gt := by
  have hsorts : ∀ (i : Nat) (order : RowOrder), residentOrders[i]? = some (some order) →
      order.Sorts resident (residents i) := by
    intro i order h
    match i with
    | 0 =>
      obtain rfl : _ = order := Option.some.inj (Option.some.inj h)
      exact ⟨by decide +kernel, by decide +kernel⟩
    | 1 =>
      obtain rfl : _ = order := Option.some.inj (Option.some.inj h)
      exact ⟨by decide +kernel, by decide +kernel⟩
    | i + 2 => simp [residentOrders] at h
  obtain ⟨hmerge, hkey, hexact⟩ := sharedMergeKey_sorts resident
  obtain ⟨a, b, -, -, horder, hdescends⟩ :=
    hexact ⟨["age", "id"], []⟩ ["id"] (by decide) (by decide) (by decide) (by decide)
  exact ⟨by decide, (hmerge residentOrders residents "id" _ hsorts (by decide)).2,
    hkey _ _ (by decide) _ (hsorts 0 _ rfl), a, b, horder, hdescends⟩

end RowOrder

end RecordLayer
