import RecordLayer.Proofs.Value.Order
import RecordLayer.RowOrder

/-!
# Orders imply merge keys

`RowOrder.Sorts` says that records are in an order: they do not descend on its fields, and its
constants have one value. **Records in an order that satisfies a key are sorted by the key.** A
constant never decides a comparison, so it can be left out of both the order and the key, and what
is left of the key is then the beginning of what is left of the order.
-/

namespace RecordLayer

/-! ## Comparing records by fields -/

namespace RecordType

/-- Compares two records by the values of some fields, from left to right. -/
def compareBy (t : RecordType) (fields : List String) (a b : Record) : Ordering :=
  Value.compareLists (fields.map (t.valueOf a)) (fields.map (t.valueOf b))

variable {t : RecordType} {a b : Record}

theorem compareBy_cons (t : RecordType) (f : String) (fields : List String) (a b : Record) :
    t.compareBy (f :: fields) a b =
      ((t.valueOf a f).compare (t.valueOf b f)).then (t.compareBy fields a b) := rfl

theorem compareBy_swap (t : RecordType) (fields : List String) (a b : Record) :
    t.compareBy fields a b = (t.compareBy fields b a).swap :=
  Value.compareLists_swap _ _

theorem compareBy_append (t : RecordType) (fs gs : List String) (a b : Record) :
    t.compareBy (fs ++ gs) a b = (t.compareBy fs a b).then (t.compareBy gs a b) := by
  rw [compareBy, List.map_append, List.map_append, Value.compareLists_append (by simp)]
  rfl

theorem compareBy_eq_iff {fields : List String} :
    t.compareBy fields a b = .eq ↔ ∀ f ∈ fields, t.valueOf a f = t.valueOf b f := by
  rw [compareBy, Value.compareLists_eq_iff, List.map_inj_left]

/-- A first part with equal values does not count. -/
theorem compareBy_append_of_eq {fields : List String}
    (h : ∀ f ∈ fields, t.valueOf a f = t.valueOf b f) (rest : List String) :
    t.compareBy (fields ++ rest) a b = t.compareBy rest a b := by
  rw [compareBy_append, compareBy_eq_iff.2 h]
  rfl

/-- Fields with equal values do not count. -/
theorem compareBy_filter {fields : List String} {p : String → Bool}
    (h : ∀ f ∈ fields, p f = false → t.valueOf a f = t.valueOf b f) :
    t.compareBy (fields.filter p) a b = t.compareBy fields a b := by
  induction fields with
  | nil => rfl
  | cons f rest ih =>
    have hrest := ih fun g hg => h g (List.mem_cons_of_mem _ hg)
    cases hp : p f with
    | true => rw [List.filter_cons_of_pos hp, compareBy_cons, compareBy_cons, hrest]
    | false =>
      rw [List.filter_cons_of_neg (by simp [hp]), compareBy_cons, hrest, h f (by simp) hp,
        Value.compare_self]
      rfl

/-- Records that do not descend on some fields do not descend on the first ones of them. -/
theorem compareBy_of_prefix {fs gs : List String} (h : fs <+: gs)
    (hgs : t.compareBy gs a b ≠ .gt) : t.compareBy fs a b ≠ .gt := by
  obtain ⟨rest, rfl⟩ := h
  rw [compareBy_append] at hgs
  cases hc : t.compareBy fs a b with
  | gt => rw [hc] at hgs; exact hgs
  | lt | eq => simp

end RecordType

namespace RowOrder

variable {t : RecordType} {o : RowOrder} {out : List Record}

/-- The records are in the order. -/
structure Sorts (t : RecordType) (o : RowOrder) (out : List Record) : Prop where
  sorted : out.Pairwise fun a b => t.compareBy o.fields a b ≠ .gt
  constant : ∀ a ∈ out, ∀ b ∈ out, ∀ f ∈ o.constants, t.valueOf a f = t.valueOf b f

/-- Leaving records out keeps the order. -/
theorem Sorts.sublist {out' : List Record} (h : o.Sorts t out) (hs : out'.Sublist out) :
    o.Sorts t out' where
  sorted := h.sorted.sublist hs
  constant a ha b hb := h.constant a (hs.subset ha) b (hs.subset hb)

/-- What keeps the fields of an order keeps the order. -/
theorem Sorts.map {image : Record → Record} (h : o.Sorts t out)
    (himage : ∀ r ∈ out, ∀ f ∈ o.fields ++ o.constants, t.valueOf (image r) f = t.valueOf r f) :
    o.Sorts t (out.map image) where
  sorted := by
    refine List.pairwise_map.2 (List.Pairwise.imp_of_mem (fun {a b} ha hb hab => ?_) h.sorted)
    have hsame : ∀ r ∈ out, o.fields.map (t.valueOf (image r)) = o.fields.map (t.valueOf r) :=
      fun r hr => List.map_inj_left.2 fun f hf => himage r hr f (List.mem_append_left _ hf)
    rwa [RecordType.compareBy, hsame a ha, hsame b hb]
  constant := by
    intro a ha b hb f hf
    obtain ⟨r, hr, rfl⟩ := List.mem_map.1 ha
    obtain ⟨s, hs, rfl⟩ := List.mem_map.1 hb
    rw [himage r hr f (List.mem_append_right _ hf), himage s hs f (List.mem_append_right _ hf)]
    exact h.constant r hr s hs f hf

/-- Two records that hold the same constants and do not descend are in the order. -/
theorem sorts_pair {a b : Record} (hconstant : ∀ f ∈ o.constants, t.valueOf a f = t.valueOf b f)
    (hsorted : t.compareBy o.fields a b ≠ .gt) : o.Sorts t [a, b] where
  sorted := List.pairwise_pair.2 hsorted
  constant := by
    have hsame : ∀ r ∈ [a, b], ∀ f ∈ o.constants, t.valueOf r f = t.valueOf a f := by
      simpa using fun f hf => (hconstant f hf).symm
    exact fun r hr s hs f hf => (hsame r hr f hf).trans (hsame s hs f hf).symm

theorem not_mem_constants {fields : List String} {f : String} (h : f ∈ o.varying fields) :
    f ∉ o.constants := by
  simpa using (List.mem_filter.1 h).2

/-- Records with the same constants compare by the fields that are not constant. -/
theorem compareBy_varying {a b : Record} (h : ∀ f ∈ o.constants, t.valueOf a f = t.valueOf b f)
    (fields : List String) : t.compareBy (o.varying fields) a b = t.compareBy fields a b :=
  RecordType.compareBy_filter fun f _ hf => h f (by simpa using hf)

/-- **Records in an order that satisfies a key are sorted by the key.** -/
theorem Sorts.of_satisfies (h : o.Sorts t out) {key : List String} (hkey : o.satisfies key = true) :
    out.Pairwise fun a b => t.compareBy key a b ≠ .gt := by
  refine List.Pairwise.imp_of_mem (fun {a b} ha hb hab => ?_) h.sorted
  have hvarying := compareBy_varying (h.constant a ha b hb)
  rw [← hvarying]
  rw [← hvarying] at hab
  exact RecordType.compareBy_of_prefix (List.isPrefixOf_iff_prefix.1 hkey) hab

/-! ## Merge keys -/

theorem allKnown_eq_some {orders : List (Option RowOrder)} {known : List RowOrder}
    (h : allKnown orders = some known) : orders = known.map some := by
  induction orders generalizing known with
  | nil => simp_all [allKnown]
  | cons o rest ih =>
    cases o with
    | none => simp [allKnown] at h
    | some o =>
      rw [allKnown] at h
      obtain ⟨tail, htail, rfl⟩ := Option.map_eq_some_iff.1 h
      rw [ih htail, List.map_cons]

/-- **A shared merge key ends in the primary key, and every order is known and satisfies it.** -/
theorem sharedMergeKey_spec {orders : List (Option RowOrder)} {primaryKey : String}
    {key : List String} (h : sharedMergeKey orders primaryKey = some key) :
    key.getLast? = some primaryKey ∧ ∀ o ∈ orders, ∃ o', o = some o' ∧ o'.satisfies key = true := by
  unfold sharedMergeKey at h
  obtain ⟨known, hknown, h⟩ := Option.bind_eq_some_iff.1 h
  have hall := List.find?_some h
  have hmem := List.mem_of_find?_eq_some h
  refine ⟨by simpa using (List.mem_filter.1 hmem).2, fun o ho => ?_⟩
  rw [allKnown_eq_some hknown] at ho
  obtain ⟨o', ho', rfl⟩ := List.mem_map.1 ho
  exact ⟨o', rfl, List.all_eq_true.1 hall o' ho'⟩

/-- A shared merge key is the primary key alone or the fields of one of the orders. -/
theorem sharedMergeKey_source {orders : List (Option RowOrder)} {primaryKey : String}
    {key : List String} (h : sharedMergeKey orders primaryKey = some key) :
    key = [primaryKey] ∨ ∃ o, some o ∈ orders ∧ key = o.fields := by
  unfold sharedMergeKey at h
  obtain ⟨known, hknown, h⟩ := Option.bind_eq_some_iff.1 h
  rcases List.mem_cons.1 (List.mem_filter.1 (List.mem_of_find?_eq_some h)).1 with rfl | hmem
  · exact .inl rfl
  · obtain ⟨o, ho, rfl⟩ := List.mem_map.1 hmem
    rw [allKnown_eq_some hknown]
    exact .inr ⟨o, List.mem_map.2 ⟨o, ho, rfl⟩, rfl⟩

/-- A key that ends in the primary key tells records with different primary keys apart. -/
theorem strict_of_sorted {key : List String} (hlast : key.getLast? = some t.primaryKey)
    (hne : out.Pairwise fun a b => t.valueOf a t.primaryKey ≠ t.valueOf b t.primaryKey)
    (h : out.Pairwise fun a b => t.compareBy key a b ≠ .gt) :
    out.Pairwise fun a b => t.compareBy key a b = .lt := by
  refine List.Pairwise.imp₂ (fun a b hab hkey => ?_) h hne
  cases hc : t.compareBy key a b with
  | lt => rfl
  | gt => exact absurd hc hab
  | eq => exact absurd (RecordType.compareBy_eq_iff.1 hc _ (List.mem_of_getLast? hlast)) hkey

end RowOrder

end RecordLayer
