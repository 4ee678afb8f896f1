import RecordLayer.Proofs.Record
import RecordLayer.Proofs.Store.Serving

/-!
# The order of an index

Entries of an index are sorted by its key and then by the primary key. A plan declares the order
of a scan with the primary key moved to the end of the key, so the declaration leaves out that
the primary key was compared before the key fields behind it. An index is *settled* if that
makes no difference:

* its key ends in the primary key, and nothing is moved;
* or no field behind the primary key is new: each is the primary key or stands in
  front of it as well;
* or the fields in front of the primary key contain the key of a unique index, so that records which
  agree on them are one record.

**The records of a settled index are in the order that is declared,** from whatever part of the key
is bound to one value.
-/

namespace RecordLayer

/-! ## The primary key as a field -/

namespace RecordType

variable {t : RecordType}

theorem valueOf_primaryKey (t : RecordType) (r : Record) :
    t.valueOf r t.primaryKey = t.keyOf r := by
  obtain ⟨f, hf, hname⟩ := List.mem_map.1 t.primaryKey_mem
  have hlt : t.fields.findIdx (·.name == t.primaryKey) < t.fields.length :=
    List.findIdx_lt_length_of_exists ⟨f, hf, by simpa using hname⟩
  rw [valueOf, position?, List.findIdx?_eq_guard_findIdx_lt, Option.guard_pos (by simpa using hlt)]
  rfl

theorem hasField_primaryKey (t : RecordType) : t.hasField t.primaryKey = true := by
  obtain ⟨f, hf, hname⟩ := List.mem_map.1 t.primaryKey_mem
  exact List.any_eq_true.2 ⟨f, hf, by simpa using hname⟩

end RecordType

namespace Index

/-- The key fields in front of the primary key. -/
def inFront (i : Index) (t : RecordType) : List String :=
  i.keyFields.takeWhile (· != t.primaryKey)

/-- The key fields from the primary key on. -/
def behind (i : Index) (t : RecordType) : List String :=
  i.keyFields.dropWhile (· != t.primaryKey)

/-- Moving the primary key to the end of the key makes no difference to the order. -/
def Settled (c : Catalog) (t : RecordType) (i : Index) : Prop :=
  i.keyFields.getLast? = some t.primaryKey ∨
  (∀ f ∈ i.behind t, f = t.primaryKey ∨ f ∈ i.inFront t) ∨
  ∃ u ∈ c.plannableIndexes t.name, u.unique = true ∧ ∀ f ∈ u.keyFields, f ∈ i.inFront t

/-- That also holds when the fields up to the primary key are bound, or the index is settled. -/
def SettledBehind (c : Catalog) (t : RecordType) (i : Index) (bound : Nat) : Prop :=
  (i.inFront t).length < bound ∨ i.Settled c t

variable {v : StoreView} {t : RecordType} {rows : List Record} {i : Index} {a b : Record}
  {bound : Nat}

theorem inFront_append_behind (i : Index) (t : RecordType) :
    i.inFront t ++ i.behind t = i.keyFields := List.takeWhile_append_dropWhile

theorem ne_of_mem_inFront {f : String} (h : f ∈ i.inFront t) : f ≠ t.primaryKey := by
  simpa using List.all_eq_true.1 List.all_takeWhile f h

theorem behind_cases (i : Index) (t : RecordType) :
    i.behind t = [] ∨ ∃ rest, i.behind t = t.primaryKey :: rest := by
  cases hd : i.behind t with
  | nil => exact .inl rfl
  | cons f rest =>
    have hhead := List.head?_dropWhile_not (· != t.primaryKey) i.keyFields
    rw [← behind, hd] at hhead
    exact .inr ⟨rest, by simpa using hhead⟩

theorem compare_entryOf (i : Index) (t : RecordType) (a b : Record) :
    (i.entryOf t a).compare (i.entryOf t b) = (t.compareBy i.keyFields a b).then
      ((t.valueOf a t.primaryKey).compare (t.valueOf b t.primaryKey)) := by
  rw [RecordType.valueOf_primaryKey, RecordType.valueOf_primaryKey]
  rfl

/-- Records that agree on what is bound are compared by the rest of the key. -/
theorem compareBy_drop {fields : List String}
    (h : ∀ f ∈ fields.take bound, t.valueOf a f = t.valueOf b f) :
    t.compareBy (fields.drop bound) a b = t.compareBy fields a b := by
  rw [← RecordType.compareBy_append_of_eq h, List.take_append_drop]

/-- Of two entries whose keys agree in front of the primary key, the one with the smaller primary
key comes first. -/
theorem compare_primaryKey (hfront : ∀ f ∈ i.inFront t, t.valueOf a f = t.valueOf b f)
    (hab : (i.entryOf t a).compare (i.entryOf t b) = .lt) :
    (t.valueOf a t.primaryKey).compare (t.valueOf b t.primaryKey) ≠ .gt := by
  intro hgt
  rw [compare_entryOf, ← inFront_append_behind i t, RecordType.compareBy_append_of_eq hfront] at hab
  rcases i.behind_cases t with hnil | ⟨rest, hcons⟩
  · rw [hnil, hgt] at hab
    cases hab
  · rw [hcons, RecordType.compareBy_cons, hgt] at hab
    cases hab

/-- Entries whose keys agree in front of the primary key, and in some more fields, are ordered by
these and the primary key. -/
theorem compareBy_append_primaryKey {fields : List String}
    (hfront : ∀ f ∈ i.inFront t, t.valueOf a f = t.valueOf b f)
    (hfields : ∀ f ∈ fields, t.valueOf a f = t.valueOf b f)
    (hab : (i.entryOf t a).compare (i.entryOf t b) = .lt) :
    t.compareBy (fields ++ [t.primaryKey]) a b ≠ .gt := by
  have hle := compare_primaryKey hfront hab
  rw [RecordType.compareBy_append_of_eq hfields]
  show ((t.valueOf a t.primaryKey).compare (t.valueOf b t.primaryKey)).then .eq ≠ .gt
  rwa [Ordering.then_eq]

/-- More is bound than what stands in front of the primary key. -/
theorem sorted_of_bound (hb : (i.inFront t).length < bound)
    (hconst : ∀ f ∈ i.keyFields.take bound, t.valueOf a f = t.valueOf b f)
    (hne : t.valueOf a t.primaryKey ≠ t.valueOf b t.primaryKey)
    (hab : (i.entryOf t a).compare (i.entryOf t b) = .lt) :
    t.compareBy (RowOrder.endingIn t.primaryKey (i.keyFields.drop bound)) a b ≠ .gt := by
  have hkey := i.inFront_append_behind t
  rcases i.behind_cases t with hnil | ⟨rest, hcons⟩
  · -- the whole key is bound, and the primary key decides
    rw [hnil, List.append_nil] at hkey
    have hempty : i.keyFields.drop bound = [] :=
      List.drop_of_length_le (by rw [← hkey]; exact Nat.le_of_lt hb)
    have hfront : ∀ f ∈ i.inFront t, t.valueOf a f = t.valueOf b f := fun f hf =>
      hconst f (by rw [← hkey, List.take_of_length_le (Nat.le_of_lt hb)]; exact hf)
    rw [hempty]
    exact compareBy_append_primaryKey hfront (List.forall_mem_nil _) hab
  · -- the primary key is bound, so there are no two records
    refine absurd (hconst t.primaryKey ?_) hne
    rw [← hkey, hcons, List.mem_take_iff_getElem]
    exact ⟨(i.inFront t).length, by simp; omega, by simp⟩

/-- A key that ends in the primary key still does so behind a part that is bound. -/
theorem drop_eq_nil_of_getLast? {fields : List String} {last : String}
    (hend : fields.getLast? = some last) (hdrop : (fields.drop bound).getLast? ≠ some last) :
    fields.drop bound = [] := by
  cases hd : fields.drop bound with
  | nil => rfl
  | cons f rest =>
    have hsplit := List.take_append_drop bound fields
    rw [hd] at hsplit hdrop
    rw [← hsplit, List.getLast?_append] at hend
    simp only [List.getLast?_cons, Option.some_or] at hend hdrop
    exact absurd hend hdrop

/-- **Of a settled index, records that agree in front of the primary key agree behind it.** -/
theorem Settled.agree_behind (h : i.Settled v.catalog t) (hserves : v.Serves t rows)
    (ha : a ∈ rows) (hb : b ∈ rows) (hbound : bound ≤ (i.inFront t).length)
    (hne : t.valueOf a t.primaryKey ≠ t.valueOf b t.primaryKey)
    (hlast : (i.keyFields.drop bound).getLast? ≠ some t.primaryKey)
    (hfront : ∀ f ∈ i.inFront t, t.valueOf a f = t.valueOf b f) :
    ∀ f ∈ (i.behind t).filter (· != t.primaryKey), t.valueOf a f = t.valueOf b f := by
  intro f hf
  obtain ⟨hmem, hnot⟩ := List.mem_filter.1 hf
  rcases h with hend | hold | ⟨u, hu, hunique, hsub⟩
  · -- the whole key is bound, so nothing stands behind the primary key
    have hempty := drop_eq_nil_of_getLast? hend hlast
    rw [← i.inFront_append_behind t, List.drop_append_of_le_length hbound] at hempty
    rw [(List.append_eq_nil_iff.1 hempty).2] at hmem
    cases hmem
  · exact hfront f ((hold f hmem).resolve_left (by simpa using hnot))
  · -- a unique index has one record for what they agree on
    have hsame : u.keyOf t a = u.keyOf t b :=
      List.map_inj_left.2 fun f hf => hfront f (hsub f hf)
    exact absurd (by rw [hserves.unique u hu hunique a ha b hb hsame]) hne

/-- No more is bound than what stands in front of the primary key. -/
theorem Settled.sorted_of_free (h : i.Settled v.catalog t) (hserves : v.Serves t rows)
    (ha : a ∈ rows) (hb : b ∈ rows) (hbound : bound ≤ (i.inFront t).length)
    (hconst : ∀ f ∈ i.keyFields.take bound, t.valueOf a f = t.valueOf b f)
    (hne : t.valueOf a t.primaryKey ≠ t.valueOf b t.primaryKey)
    (hlast : (i.keyFields.drop bound).getLast? ≠ some t.primaryKey)
    (hab : (i.entryOf t a).compare (i.entryOf t b) = .lt) :
    t.compareBy ((i.keyFields.drop bound).filter (· != t.primaryKey) ++ [t.primaryKey]) a b ≠
      .gt := by
  have hkey := i.inFront_append_behind t
  have hdrop : i.keyFields.drop bound = (i.inFront t).drop bound ++ i.behind t := by
    rw [← hkey, List.drop_append_of_le_length hbound]
  have hfilter : ((i.inFront t).drop bound).filter (· != t.primaryKey) =
      (i.inFront t).drop bound :=
    List.filter_eq_self.2 fun f hf => by simpa using ne_of_mem_inFront (List.mem_of_mem_drop hf)
  have hcompare : t.compareBy ((i.inFront t).drop bound) a b ≠ .gt := by
    refine RecordType.compareBy_of_prefix (List.prefix_append _ (i.behind t)) ?_
    rw [← hdrop, compareBy_drop hconst]
    intro hgt
    rw [compare_entryOf, hgt] at hab
    cases hab
  rw [hdrop, List.filter_append, hfilter, List.append_assoc, RecordType.compareBy_append]
  cases hc : t.compareBy ((i.inFront t).drop bound) a b with
  | gt => exact absurd hc hcompare
  | lt => simp
  | eq =>
    -- the records agree on everything in front of the primary key
    have hfront : ∀ f ∈ i.inFront t, t.valueOf a f = t.valueOf b f := by
      intro f hf
      rw [← List.take_append_drop bound (i.inFront t)] at hf
      rcases List.mem_append.1 hf with hf | hf
      · refine hconst f ?_
        rw [← hkey, List.take_append_of_le_length hbound]
        exact hf
      · exact RecordType.compareBy_eq_iff.1 hc f hf
    exact compareBy_append_primaryKey hfront
      (h.agree_behind hserves ha hb hbound hne hlast hfront) hab

/-- **The records of an index that is settled behind what is bound are in the declared order.** -/
theorem SettledBehind.sorts (h : i.SettledBehind v.catalog t bound) (hserves : v.Serves t rows)
    {out : List Record} (hout : ∀ r ∈ out, r ∈ rows)
    (hasc : out.Pairwise fun a b => (i.entryOf t a).compare (i.entryOf t b) = .lt)
    (hconst : ∀ a ∈ out, ∀ b ∈ out, ∀ f ∈ i.keyFields.take bound,
      t.valueOf a f = t.valueOf b f) :
    RowOrder.Sorts t ⟨RowOrder.endingIn t.primaryKey (i.keyFields.drop bound),
      i.keyFields.take bound⟩ out where
  sorted := by
    refine List.Pairwise.imp_of_mem (fun {a b} ha hb hab => ?_) hasc
    have hconst := hconst a ha b hb
    have hne : t.valueOf a t.primaryKey ≠ t.valueOf b t.primaryKey := by
      intro heq
      rw [RecordType.valueOf_primaryKey, RecordType.valueOf_primaryKey] at heq
      rw [hserves.eq_of_keyOf (hout a ha) (hout b hb) heq, EntryKey.compare_self] at hab
      cases hab
    dsimp only
    by_cases hb' : bound ≤ (i.inFront t).length
    · have hsettled : i.Settled v.catalog t := h.resolve_left (Nat.not_lt.2 hb')
      unfold RowOrder.endingIn
      split
      · rw [compareBy_drop hconst]
        intro hgt
        rw [compare_entryOf, hgt] at hab
        cases hab
      · rename_i hlast
        exact hsettled.sorted_of_free hserves (hout a ha) (hout b hb) hb' hconst hne hlast hab
    · exact sorted_of_bound (Nat.not_le.1 hb') hconst hne hab
  constant := hconst

/-! ## Covering entries -/

/-- An entry carries the primary key and the fields that the index stores. -/
theorem valueOf_project {r : Record} (hr : t.validate r = .ok ()) {field : String}
    (hfield : field = t.primaryKey ∨ i.storesField field = true) :
    t.valueOf (i.project t r) field = t.valueOf r field := by
  have hlen : r.values.length = t.fields.length := (RecordType.validate_eq_ok_iff.1 hr).1
  unfold RecordType.valueOf
  cases hp : t.position? field with
  | none => rfl
  | some n =>
    obtain ⟨hlt, hname, -⟩ := List.findIdx?_eq_some_iff_getElem.1 hp
    have hname : t.fields[n].name = field := by simpa using hname
    have hvalue : (i.project t r).values[n]? = r.values[n]? := by
      simp [project, hlt, hlen, hname, hfield]
    simp only [Record.get, List.getD_eq_getElem?_getD, hvalue]

end Index

end RecordLayer
