import RecordLayer.Filter.Compiled
import RecordLayer.Proofs.Record
import RecordLayer.Proofs.Store.Serving
import RecordLayer.Proofs.Text.Order

/-!
# Evaluating filters

A filter can be bound to a record type exactly if it tests known fields only, and ranks only of
fields with a rank index. **What was bound answers what the filter means,** under the ranks
that the view gives; in a view that serves some rows the rank of a value is the number of rows
with a smaller one.

`Filter.Over` says of which fields a filter speaks; it is what validation checks and what everything
that planning makes of a filter inherits.
-/

namespace RecordLayer

namespace Filter

/-! ## Induction -/

/-- Induction over a filter and, in the combinations, over each of their children. -/
@[elab_as_elim]
theorem induction {P : Filter → Prop} (compare : ∀ field op value, P (.compare field op value))
    (oneOf : ∀ field values, P (.oneOf field values))
    (rank : ∀ field op n, P (.rank field op n)) (not : ∀ child, P child → P (.not child))
    (all : ∀ children, (∀ f ∈ children, P f) → P (.all children))
    (any : ∀ children, (∀ f ∈ children, P f) → P (.any children)) (f : Filter) : P f :=
  @Filter.rec P (fun fs => ∀ f ∈ fs, P f) compare all any not oneOf rank
    (fun _ h => absurd h (by simp))
    (fun _ _ hhead htail _ h => (List.mem_cons.1 h).elim (fun heq => heq ▸ hhead) (htail _)) f

/-! ## Meaning -/

section Meaning

variable {value value' : String → Value} {rankOf rankOf' : String → Value → UInt64}

theorem allHold_eq (fs : List Filter) :
    allHold value rankOf fs = fs.all (·.holds value rankOf) := by
  induction fs with
  | nil => rfl
  | cons f rest ih => rw [allHold, ih, List.all_cons]

theorem anyHolds_eq (fs : List Filter) :
    anyHolds value rankOf fs = fs.any (·.holds value rankOf) := by
  induction fs with
  | nil => rfl
  | cons f rest ih => rw [anyHolds, ih, List.any_cons]

@[simp] theorem holds_all (fs : List Filter) :
    (Filter.all fs).holds value rankOf = fs.all (·.holds value rankOf) := by
  rw [holds, allHold_eq]

@[simp] theorem holds_any (fs : List Filter) :
    (Filter.any fs).holds value rankOf = fs.any (·.holds value rankOf) := by
  rw [holds, anyHolds_eq]

@[simp] theorem holds_not (f : Filter) :
    (Filter.not f).holds value rankOf = !f.holds value rankOf := by rfl

@[simp] theorem holds_compare (field : String) (op : Comparator) (expected : Value) :
    (Filter.compare field op expected).holds value rankOf = op.test (value field) expected := by
  rfl

@[simp] theorem holds_oneOf (field : String) (values : List Value) :
    (Filter.oneOf field values).holds value rankOf = values.contains (value field) := by
  rfl

@[simp] theorem holds_rank (field : String) (op : Comparator) (n : UInt64) :
    (Filter.rank field op n).holds value rankOf = op.testRank (rankOf field (value field)) n := by
  rfl

end Meaning

/-! ## The fields that a filter speaks of -/

/-- Every field that is tested has a property, and one whose rank is tested has another one too. -/
inductive Over (P R : String → Prop) : Filter → Prop
  | compare {field : String} {op : Comparator} {value : Value} (h : P field) :
    Over P R (.compare field op value)
  | oneOf {field : String} {values : List Value} (h : P field) : Over P R (.oneOf field values)
  | rank {field : String} {op : Comparator} {n : UInt64} (h : P field) (hr : R field) :
    Over P R (.rank field op n)
  | not {child : Filter} (h : Over P R child) : Over P R (.not child)
  | all {children : List Filter} (h : ∀ f ∈ children, Over P R f) : Over P R (.all children)
  | any {children : List Filter} (h : ∀ f ∈ children, Over P R f) : Over P R (.any children)

theorem Over.mono {P R P' R' : String → Prop} (hP : ∀ f, P f → P' f) (hR : ∀ f, R f → R' f)
    {f : Filter} (h : f.Over P R) : f.Over P' R' := by
  induction h with
  | compare h => exact .compare (hP _ h)
  | oneOf h => exact .oneOf (hP _ h)
  | rank h hr => exact .rank (hP _ h) (hR _ hr)
  | not _ ih => exact .not ih
  | all _ ih => exact .all ih
  | any _ ih => exact .any ih

theorem mem_nodesOfList {f g : Filter} {fs : List Filter} (hf : f ∈ fs) (hg : g ∈ f.nodes) :
    g ∈ nodesOfList fs := by
  induction fs with
  | nil => simp at hf
  | cons h rest ih =>
    rw [nodesOfList, List.mem_append]
    rcases List.mem_cons.1 hf with rfl | hf
    · exact .inl hg
    · exact .inr (ih hf)

/-- A filter speaks of the fields that occur at its nodes. -/
theorem over_of_nodes {P R : String → Prop} (f : Filter)
    (hP : ∀ g ∈ f.nodes, ∀ field, g.leafField? = some field → g.isLeaf = true →
      (∀ child, g ≠ .not child) → P field)
    (hR : ∀ g ∈ f.nodes, ∀ field op n, g = .rank field op n → R field) : f.Over P R := by
  induction f using Filter.induction with
  | compare field op value =>
    exact .compare (hP (.compare field op value) (by simp [nodes]) field rfl rfl (by simp))
  | oneOf field values =>
    exact .oneOf (hP (.oneOf field values) (by simp [nodes]) field rfl rfl (by simp))
  | rank field op n =>
    exact .rank (hP (.rank field op n) (by simp [nodes]) field rfl rfl (by simp))
      (hR (.rank field op n) (by simp [nodes]) field op n rfl)
  | not child ih =>
    have hmem : ∀ g ∈ child.nodes, g ∈ (Filter.not child).nodes := fun g hg => by
      rw [nodes]
      exact List.mem_cons_of_mem _ hg
    exact .not (ih (fun g hg => hP g (hmem g hg)) fun g hg => hR g (hmem g hg))
  | all children ih =>
    refine .all fun f hf => ih f hf (fun g hg => hP g ?_) fun g hg => hR g ?_ <;>
    · rw [nodes]
      exact List.mem_cons_of_mem _ (mem_nodesOfList hf hg)
  | any children ih =>
    refine .any fun f hf => ih f hf (fun g hg => hP g ?_) fun g hg => hR g ?_ <;>
    · rw [nodes]
      exact List.mem_cons_of_mem _ (mem_nodesOfList hf hg)

/-- **A filter speaks of its fields.** -/
theorem over_of_fields {P R : String → Prop} {f : Filter} (hP : ∀ field ∈ f.fields, P field)
    (hR : ∀ field ∈ f.rankFields, R field) : f.Over P R := by
  refine over_of_nodes f (fun g hg field hfield hleaf hnot => hP field ?_)
    fun g hg field op n heq => hR field ?_
  · rw [fields, Text.mem_sortDistinct, List.mem_filterMap]
    refine ⟨g, hg, ?_⟩
    cases g with
    | compare f op v => simpa [leafField?] using hfield
    | oneOf f vs => simpa [leafField?] using hfield
    | rank f op n => simpa [leafField?] using hfield
    | not child => exact absurd rfl (hnot child)
    | all children => simp [isLeaf] at hleaf
    | any children => simp [isLeaf] at hleaf
  · rw [rankFields, Text.mem_sortDistinct, List.mem_filterMap]
    exact ⟨g, hg, by rw [heq]⟩

/-- Filters that hold alike make conjunctions and disjunctions that do. -/
theorem all_any_congr {fs : List Filter} {p q : Filter → Bool} (h : ∀ f ∈ fs, p f = q f) :
    fs.all p = fs.all q ∧ fs.any p = fs.any q := by
  induction fs with
  | nil => exact ⟨rfl, rfl⟩
  | cons f rest ih =>
    obtain ⟨hall, hany⟩ := ih fun g hg => h g (List.mem_cons_of_mem _ hg)
    simp only [List.all_cons, List.any_cons, h f (by simp), hall, hany, and_self]

/-- What a filter means depends on the fields that it speaks of only. -/
theorem Over.holds_congr {P R : String → Prop} {value value' : String → Value}
    {rankOf : String → Value → UInt64} {f : Filter} (h : f.Over P R)
    (hvalue : ∀ field, P field → value field = value' field) :
    f.holds value rankOf = f.holds value' rankOf := by
  induction h with
  | compare h => simp [hvalue _ h]
  | oneOf h => simp [hvalue _ h]
  | rank h hr => simp [hvalue _ h]
  | not _ ih => simp [ih]
  | all _ ih => simpa only [holds_all] using (all_any_congr ih).1
  | any _ ih => simpa only [holds_any] using (all_any_congr ih).2

end Filter

theorem bind_eq_ok_iff {ε α β : Type} {x : Except ε α} {f : α → Except ε β} {b : β} :
    (x >>= f) = .ok b ↔ ∃ a, x = .ok a ∧ f a = .ok b := by
  constructor
  · intro h
    cases x with
    | error e => cases h
    | ok a => exact ⟨a, rfl, h⟩
  · rintro ⟨a, rfl, h⟩
    exact h

/-- What succeeds did so at its first step. -/
theorem exists_of_bind_eq_ok {ε α β : Type} {x : Except ε α} {f : α → Except ε β} {b : β}
    (h : (x >>= f) = .ok b) : ∃ a, x = .ok a ∧ f a = .ok b := bind_eq_ok_iff.1 h

/-! ## Ranks among rows -/

/-- How many rows have a smaller value in the field. -/
def rankAmong (t : RecordType) (rows : List Record) (field : String) (value : Value) : UInt64 :=
  (rows.countP fun r => (t.valueOf r field).lt value).toUInt64

namespace RecordType

variable {t : RecordType}

/-- The value of a field stands at its position. -/
theorem valueOf_of_position {field : String} {i : Nat} (h : t.position field = .ok i) (r : Record) :
    t.valueOf r field = r.get i := by
  unfold position at h
  unfold valueOf
  cases hp : t.position? field with
  | none =>
    rw [hp] at h
    cases h
  | some j =>
    rw [hp] at h
    cases h
    rfl

theorem hasField_of_position {field : String} {i : Nat} (h : t.position field = .ok i) :
    t.hasField field = true := by
  unfold position at h
  cases hp : t.position? field with
  | none =>
    rw [hp] at h
    cases h
  | some j =>
    obtain ⟨hlt, hname, -⟩ := List.findIdx?_eq_some_iff_getElem.1 hp
    exact List.any_eq_true.2 ⟨_, List.getElem_mem hlt, hname⟩

theorem exists_position {field : String} (h : t.hasField field = true) :
    ∃ i, t.position field = .ok i ∧ ∀ r : Record, t.valueOf r field = r.get i := by
  obtain ⟨i, hp⟩ := exists_position? h
  have hi : t.position field = .ok i := by rw [position, hp]
  exact ⟨i, hi, valueOf_of_position hi⟩

end RecordType

/-- What a view answers when it is asked for ranks of the fields of a record type. -/
def StoreView.Ranks (v : StoreView) (c : Catalog) (t : RecordType)
    (rankOf : String → Value → UInt64) : Prop :=
  ∀ field i, c.rankIndex? t.name field = some i →
    ∀ value, (v.rankOf i value).Gives (rankOf field value)

/-- A view answers with ranks among the rows that it serves. -/
theorem StoreView.Serves.ranks {v : StoreView} {t : RecordType} {rows : List Record}
    (h : v.Serves t rows) (hc : v.catalog.Sound) : v.Ranks v.catalog t (rankAmong t rows) := by
  intro field i hi value
  obtain ⟨hmem, hrank, hkey⟩ := hc.rankIndex h.recordType hi
  have hgives := (h.answersFrom hmem hrank hkey).rankOf value
  rw [List.countP_map] at hgives
  exact hgives

namespace CompiledNode

open Reading

variable {v : StoreView} {c : Catalog} {t : RecordType} {rankOf : String → Value → UInt64}

/-! ## What can be bound -/

theorem exists_ofFilters {fs : List Filter} (h : ∀ f ∈ fs, ∃ node, ofFilter c t f = .ok node) :
    ∃ nodes, ofFilters c t fs = .ok nodes := by
  induction fs with
  | nil => exact ⟨[], rfl⟩
  | cons f rest ih =>
    obtain ⟨node, hnode⟩ := h f (by simp)
    obtain ⟨nodes, hnodes⟩ := ih fun g hg => h g (List.mem_cons_of_mem _ hg)
    exact ⟨node :: nodes, by rw [ofFilters, hnode, hnodes]; rfl⟩

/-- **A filter over known fields can be bound.** -/
theorem exists_ofFilter {f : Filter} (hf : f.Over (fun field => t.hasField field = true)
    fun field => (c.rankIndex? t.name field).isSome = true) :
    ∃ node, ofFilter c t f = .ok node := by
  induction hf with
  | @compare field op value hfield =>
    obtain ⟨i, hi, -⟩ := RecordType.exists_position hfield
    exact ⟨.compare i op value, by rw [ofFilter, hi]; rfl⟩
  | @oneOf field values hfield =>
    obtain ⟨i, hi, -⟩ := RecordType.exists_position hfield
    exact ⟨.oneOf i values, by rw [ofFilter, hi]; rfl⟩
  | @rank field op n hfield hrank =>
    obtain ⟨i, hi, -⟩ := RecordType.exists_position hfield
    obtain ⟨index, hindex⟩ := Option.isSome_iff_exists.1 hrank
    refine ⟨.rank i index op n, ?_⟩
    simp only [ofFilter, hi, hindex]
    rfl
  | @not child _ ih =>
    obtain ⟨node, hnode⟩ := ih
    exact ⟨.not node, by rw [ofFilter, hnode]; rfl⟩
  | @all children _ ih =>
    obtain ⟨nodes, hnodes⟩ := exists_ofFilters ih
    exact ⟨.all nodes, by rw [ofFilter, hnodes]; rfl⟩
  | @any children _ ih =>
    obtain ⟨nodes, hnodes⟩ := exists_ofFilters ih
    exact ⟨.any nodes, by rw [ofFilter, hnodes]; rfl⟩

theorem mem_ofFilters {fs : List Filter} {nodes : List CompiledNode}
    (h : ofFilters c t fs = .ok nodes) : ∀ f ∈ fs, ∃ node, ofFilter c t f = .ok node := by
  induction fs generalizing nodes with
  | nil => simp
  | cons f rest ih =>
    obtain ⟨node, hnode, hrest⟩ := exists_of_bind_eq_ok h
    obtain ⟨nodes, hnodes, -⟩ := exists_of_bind_eq_ok hrest
    intro g hg
    rcases List.mem_cons.1 hg with rfl | hg
    · exact ⟨node, hnode⟩
    · exact ih hnodes g hg

/-- A filter that can be bound tests known fields only, and ranks only of fields
with a rank index. -/
theorem over_of_ofFilter {f : Filter} : ∀ {node : CompiledNode}, ofFilter c t f = .ok node →
    f.Over (fun field => t.hasField field = true)
      fun field => (c.rankIndex? t.name field).isSome = true := by
  induction f using Filter.induction with
  | compare field op value =>
    intro node h
    obtain ⟨i, hi, -⟩ := exists_of_bind_eq_ok h
    exact .compare (RecordType.hasField_of_position hi)
  | oneOf field values =>
    intro node h
    obtain ⟨i, hi, -⟩ := exists_of_bind_eq_ok h
    exact .oneOf (RecordType.hasField_of_position hi)
  | rank field op n =>
    intro node h
    obtain ⟨i, hi, hrest⟩ := exists_of_bind_eq_ok h
    refine .rank (RecordType.hasField_of_position hi) ?_
    cases hindex : c.rankIndex? t.name field with
    | some index => rfl
    | none =>
      rw [hindex] at hrest
      cases hrest
  | not child ih =>
    intro node h
    obtain ⟨inner, hinner, -⟩ := exists_of_bind_eq_ok h
    exact .not (ih hinner)
  | all children ih =>
    intro node h
    obtain ⟨nodes, hnodes, -⟩ := exists_of_bind_eq_ok h
    refine .all fun f hf => ?_
    obtain ⟨inner, hinner⟩ := mem_ofFilters hnodes f hf
    exact ih f hf hinner
  | any children ih =>
    intro node h
    obtain ⟨nodes, hnodes, -⟩ := exists_of_bind_eq_ok h
    refine .any fun f hf => ?_
    obtain ⟨inner, hinner⟩ := mem_ofFilters hnodes f hf
    exact ih f hf hinner

/-! ## What is bound evaluates to what it means -/

theorem evals_gives {fs : List Filter} {r : Record}
    (h : ∀ f ∈ fs, ∀ {node}, ofFilter c t f = .ok node →
      (eval v r node).Gives (f.holds (t.valueOf r) rankOf)) :
    ∀ {nodes}, ofFilters c t fs = .ok nodes →
      (evalAll v r nodes).Gives (fs.all (·.holds (t.valueOf r) rankOf)) ∧
      (evalAny v r nodes).Gives (fs.any (·.holds (t.valueOf r) rankOf)) := by
  induction fs with
  | nil =>
    intro nodes hnodes
    cases hnodes
    exact ⟨gives_pure _, gives_pure _⟩
  | cons f rest ih =>
    intro nodes hnodes
    obtain ⟨node, hnode, hrest⟩ := exists_of_bind_eq_ok hnodes
    obtain ⟨tail, htail, hrest⟩ := exists_of_bind_eq_ok hrest
    cases hrest
    obtain ⟨hall, hany⟩ := ih (fun g hg => h g (List.mem_cons_of_mem _ hg)) htail
    have hhead := h f (by simp) hnode
    -- the first child settles the outcome, or the others are asked
    refine ⟨?_, ?_⟩
    · rw [evalAll, List.all_cons]
      refine gives_bind hhead ?_
      cases f.holds (t.valueOf r) rankOf with
      | true => exact hall
      | false => exact gives_pure _
    · rw [evalAny, List.any_cons]
      refine gives_bind hhead ?_
      cases f.holds (t.valueOf r) rankOf with
      | true => exact gives_pure _
      | false => exact hany

/-- **A filter that was bound evaluates to what it means.** -/
theorem eval_gives (hranks : v.Ranks c t rankOf) {f : Filter} (r : Record) :
    ∀ {node}, ofFilter c t f = .ok node → (eval v r node).Gives (f.holds (t.valueOf r) rankOf) := by
  induction f using Filter.induction with
  | compare field op value =>
    intro node h
    obtain ⟨i, hi, hnode⟩ := exists_of_bind_eq_ok h
    cases hnode
    rw [eval, Filter.holds_compare, RecordType.valueOf_of_position hi]
    exact gives_pure _
  | oneOf field values =>
    intro node h
    obtain ⟨i, hi, hnode⟩ := exists_of_bind_eq_ok h
    cases hnode
    rw [eval, Filter.holds_oneOf, RecordType.valueOf_of_position hi]
    exact gives_pure _
  | rank field op n =>
    intro node h
    obtain ⟨i, hi, hrest⟩ := exists_of_bind_eq_ok h
    -- without an index for the rank the condition does not compile
    cases hindex : c.rankIndex? t.name field with
    | none =>
      rw [hindex] at hrest
      cases hrest
    | some index =>
      rw [hindex] at hrest
      cases hrest
      rw [eval, Filter.holds_rank, RecordType.valueOf_of_position hi]
      exact gives_bind (hranks field index hindex _) (gives_pure _)
  | not child ih =>
    intro node h
    obtain ⟨inner, hinner, hnode⟩ := exists_of_bind_eq_ok h
    cases hnode
    rw [eval, Filter.holds_not]
    exact gives_bind (ih hinner) (gives_pure _)
  | all children ih =>
    intro node h
    obtain ⟨nodes, hnodes, hnode⟩ := exists_of_bind_eq_ok h
    cases hnode
    rw [eval, Filter.holds_all]
    exact (evals_gives ih hnodes).1
  | any children ih =>
    intro node h
    obtain ⟨nodes, hnodes, hnode⟩ := exists_of_bind_eq_ok h
    cases hnode
    rw [eval, Filter.holds_any]
    exact (evals_gives ih hnodes).2

end CompiledNode

end RecordLayer
