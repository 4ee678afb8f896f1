import RecordLayer.Proofs.Document.Codec
import RecordLayer.Proofs.Document.Doubles
import RecordLayer.Proofs.Filter.Evaluation
import RecordLayer.Query.Codec

/-!
# Queries as texts

A query is written as a document and read back from its text, in any lawful format. **Everything
about it survives but, at times, a double:** one that is not finite is written as `null`, and a
finite one survives just when the format reads it back from its numeral.
-/

namespace RecordLayer

open Codec

variable {format : Document.Format}

/-! ## Values -/

namespace Value

theorem toDocument_writes (v : Value) : format.Writes ((codec format).encode v) := by
  refine ofMembers_writes (List.forall_mem_cons.2 ⟨named_writes Kind.name Kind.all v.kind, ?_⟩)
  cases v with
  | null => exact fun m h => nomatch h
  | bool b => exact List.forall_mem_singleton.2 (bool_writes b)
  | int i => exact List.forall_mem_singleton.2 (int64_writes i)
  | double d => exact List.forall_mem_singleton.2 (double_writes d)
  | text s => exact List.forall_mem_singleton.2 (text_writes s)

/-- What is read of a kind and, if there is one, a content. -/
theorem ofDocument_toDocument (limit : Nat) (v : Value) :
    (codec format).decode (limit + 1) ((codec format).encode v) =
      match v.contentDocument format with
      | none => if v.kind = .null then some null else none
      | some d => ofContent format v.kind limit d := by
  cases v <;> rfl

section Lawful

variable (hformat : format.Lawful)
include hformat

theorem survives_iff {limit : Nat} {v : Value} :
    (codec format).Survives (limit + 1) v ↔ ∀ d ∈ v.double?, format.Keeps d := by
  rw [Codec.Survives, ofDocument_toDocument]
  cases v with
  | null => simp [contentDocument, kind, double?]
  | bool b =>
    have h : Codec.bool.decode limit (Codec.bool.encode b) = some b := bool_survives limit b
    simp [contentDocument, kind, double?, ofContent, h]
  | int i =>
    have h : (Codec.int64 format).decode limit ((Codec.int64 format).encode i) = some i :=
      int64_survives hformat limit i
    simp [contentDocument, kind, double?, ofContent, h]
  | double d =>
    have h : (Codec.double format).decode limit ((Codec.double format).encode d) = some d ↔
        format.Keeps d := double_survives_iff
    simp [contentDocument, kind, double?, ofContent, h]
  | text s =>
    have h : Codec.text.decode limit (Codec.text.encode s) = some s := text_survives limit s
    simp [contentDocument, kind, double?, ofContent, h]

/-- What is written of a double that is not finite cannot be read. -/
theorem unreadable {v : Value} (h : ¬∀ d ∈ v.double?, d.isFinite = true) (limit : Nat) :
    (codec format).decode (limit + 1) ((codec format).encode v) = none := by
  rw [ofDocument_toDocument]
  cases v with
  | double d =>
    have hd : d.isFinite = false := by simpa [double?] using h
    simp [contentDocument, kind, ofContent, double_decode_eq_none hformat hd limit]
  | _ => simp [double?] at h

end Lawful

end Value

/-! ## Filters -/

namespace Filter

/-- The values that a node of a filter names itself. -/
def ownValues : Filter → List Value
  | .compare _ _ value => [value]
  | .oneOf _ values => values
  | _ => []

/-- The doubles among the values anywhere in the tree. -/
def doubles (f : Filter) : List Double := (f.nodes.flatMap ownValues).filterMap Value.double?

theorem nodesOfList_eq (fs : List Filter) : nodesOfList fs = fs.flatMap nodes := by
  induction fs with
  | nil => rfl
  | cons f rest ih => rw [nodesOfList, ih, List.flatMap_cons]

theorem toDocuments_eq (fs : List Filter) :
    toDocuments format fs = fs.map (toDocument format) := by
  induction fs with
  | nil => rfl
  | cons f rest ih => rw [toDocuments, ih, List.map_cons]

theorem depth_le_depthOfList {f : Filter} {fs : List Filter} (h : f ∈ fs) :
    f.depth ≤ depthOfList fs := by
  induction fs with
  | nil => cases h
  | cons g rest ih =>
    rw [depthOfList]
    rcases List.mem_cons.1 h with rfl | h
    · exact Nat.le_max_left _ _
    · exact Nat.le_trans (ih h) (Nat.le_max_right _ _)

/-- The doubles of a combination are those of its children. -/
theorem doubles_of_children {f : Filter} {children : List Filter}
    (hnodes : f.nodes = f :: nodesOfList children) (hown : f.ownValues = []) {P : Double → Prop} :
    (∀ d ∈ f.doubles, P d) ↔ ∀ g ∈ children, ∀ d ∈ g.doubles, P d := by
  rw [doubles, hnodes, nodesOfList_eq, List.flatMap_cons, hown, List.nil_append]
  simp only [doubles, List.mem_filterMap, List.mem_flatMap]
  constructor
  · rintro h g hg d ⟨v, ⟨n, hn, hv⟩, hd⟩
    exact h d ⟨v, ⟨n, ⟨g, hg, hn⟩, hv⟩, hd⟩
  · rintro h d ⟨v, ⟨n, ⟨g, hg, hn⟩, hv⟩, hd⟩
    exact h g hg d ⟨v, ⟨n, hn, hv⟩, hd⟩

theorem doubles_compare {field : String} {op : Comparator} {value : Value} {P : Double → Prop} :
    (∀ d ∈ (compare field op value).doubles, P d) ↔ ∀ d ∈ value.double?, P d := by
  simp [doubles, nodes, ownValues]

theorem doubles_oneOf {field : String} {values : List Value} {P : Double → Prop} :
    (∀ d ∈ (oneOf field values).doubles, P d) ↔ ∀ v ∈ values, ∀ d ∈ v.double?, P d := by
  simp only [doubles, nodes, ownValues, List.flatMap_cons, List.flatMap_nil, List.append_nil,
    List.mem_filterMap, Option.mem_def]
  constructor
  · exact fun h v hv d hd => h d ⟨v, hv, hd⟩
  · rintro h d ⟨v, hv, hd⟩
    exact h v hv d hd

theorem toDocument_writes (f : Filter) : format.Writes ((codec format).encode f) := by
  change format.Writes (f.toDocument format)
  have hop (op : Comparator) : format.Writes (Comparator.codec.encode op) :=
    named_writes Comparator.longName Comparator.all op
  induction f using Filter.induction with
  | compare field op value =>
    exact ofMembers_writes (List.forall_mem_singleton.2 (ofMembers_writes (by
      simpa using ⟨text_writes field, hop op, Value.toDocument_writes value⟩)))
  | oneOf field values =>
    have hvalues : format.Writes ((Codec.list (Value.codec format)).encode values) :=
      list_writes fun v _ => Value.toDocument_writes v
    exact ofMembers_writes (List.forall_mem_singleton.2 (ofMembers_writes (by
      simpa using ⟨text_writes field, hvalues⟩)))
  | rank field op n =>
    exact ofMembers_writes (List.forall_mem_singleton.2 (ofMembers_writes (by
      simpa using ⟨text_writes field, hop op, uint64_writes n⟩)))
  | not child ih => exact ofMembers_writes (List.forall_mem_singleton.2 ih)
  | all children ih =>
    refine ofMembers_writes (List.forall_mem_singleton.2 (.array ?_))
    rw [toDocuments_eq]
    exact List.forall_mem_map.2 ih
  | any children ih =>
    refine ofMembers_writes (List.forall_mem_singleton.2 (.array ?_))
    rw [toDocuments_eq]
    exact List.forall_mem_map.2 ih

theorem comparator_survives (limit : Nat) (op : Comparator) :
    Comparator.codec.Survives limit op := by
  cases op <;> rfl

theorem readCompare_eq (limit : Nat) (field : String) (op : Comparator) (value : Value) :
    readCompare format (limit + 1) (.ofMembers [("field", .ofString field),
      ("op", Comparator.codec.encode op), ("value", value.toDocument format)]) =
      ((Value.codec format).decode limit (value.toDocument format)).map (compare field op) := by
  have hfield : Codec.text.decode limit (.ofString field) = some field := text_survives limit field
  have hop : Comparator.codec.decode limit (Comparator.codec.encode op) = some op :=
    comparator_survives limit op
  rw [readCompare, Fields.ofDocument_ofMembers (by simp) (by simp)]
  cases hvalue : (Value.codec format).decode limit (value.toDocument format) <;>
    simp [Fields.required, Fields.get?, hfield, hop, hvalue]

theorem readOneOf_eq (limit : Nat) (field : String) (values : List Value) :
    readOneOf format (limit + 1) (.ofMembers [("field", .ofString field),
      ("values", (Codec.list (Value.codec format)).encode values)]) =
      ((Codec.list (Value.codec format)).decode limit
        ((Codec.list (Value.codec format)).encode values)).map (oneOf field) := by
  have hfield : Codec.text.decode limit (.ofString field) = some field := text_survives limit field
  rw [readOneOf, Fields.ofDocument_ofMembers (by simp) (by simp)]
  cases hvalues : (Codec.list (Value.codec format)).decode limit
      ((Codec.list (Value.codec format)).encode values) <;>
    simp [Fields.required, Fields.get?, hfield, hvalues]

theorem compare_survives_iff {limit : Nat} {field : String} {op : Comparator} {value : Value} :
    (codec format).Survives (limit + 3) (compare field op value) ↔
      (Value.codec format).Survives (limit + 1) value := by
  change readCompare format (limit + 2) _ = _ ↔
    (Value.codec format).decode (limit + 1) (value.toDocument format) = some value
  rw [readCompare_eq]
  simp

theorem oneOf_survives_iff {limit : Nat} {field : String} {values : List Value} :
    (codec format).Survives (limit + 4) (oneOf field values) ↔
      ∀ v ∈ values, (Value.codec format).Survives (limit + 1) v := by
  change readOneOf format (limit + 3) _ = _ ↔ _
  rw [readOneOf_eq, ← list_survives_iff, Codec.Survives]
  simp

theorem not_survives_iff {limit : Nat} {child : Filter} :
    (codec format).Survives (limit + 1) (not child) ↔ (codec format).Survives limit child := by
  change (ofDocument format limit (child.toDocument format)).map not = some (not child) ↔
    ofDocument format limit (child.toDocument format) = some child
  simp

theorem children_survive_iff {limit : Nat} {children : List Filter} :
    (toDocuments format children).mapM (ofDocument format limit) = some children ↔
      ∀ f ∈ children, (codec format).Survives limit f := by
  rw [toDocuments_eq]
  exact mapM_eq_self_iff

theorem all_survives_iff {limit : Nat} {children : List Filter} :
    (codec format).Survives (limit + 2) (all children) ↔
      ∀ f ∈ children, (codec format).Survives limit f := by
  change ((toDocuments format children).mapM (ofDocument format limit)).map all =
    some (all children) ↔ _
  rw [← children_survive_iff]
  simp

theorem any_survives_iff {limit : Nat} {children : List Filter} :
    (codec format).Survives (limit + 2) (any children) ↔
      ∀ f ∈ children, (codec format).Survives limit f := by
  change ((toDocuments format children).mapM (ofDocument format limit)).map any =
    some (any children) ↔ _
  rw [← children_survive_iff]
  simp

section Lawful

variable (hformat : format.Lawful)
include hformat

theorem readRank_eq (limit : Nat) (field : String) (op : Comparator) (n : UInt64) :
    readRank format (limit + 1) (.ofMembers [("field", .ofString field),
      ("op", Comparator.codec.encode op), ("rank", (Codec.uint64 format).encode n)]) =
      some (rank field op n) := by
  have hfield : Codec.text.decode limit (.ofString field) = some field := text_survives limit field
  have hop : Comparator.codec.decode limit (Comparator.codec.encode op) = some op :=
    comparator_survives limit op
  have hrank : (Codec.uint64 format).decode limit ((Codec.uint64 format).encode n) = some n :=
    uint64_survives hformat limit n
  rw [readRank, Fields.ofDocument_ofMembers (by simp) (by simp)]
  simp [Fields.required, Fields.get?, hfield, hop, hrank]

/-- **A filter survives just when each of its doubles does.** Its text is nested at most twice for
each level of the filter, and twice more in a list of values. -/
theorem survives_iff (f : Filter) : ∀ {limit : Nat}, 2 * f.depth + 2 ≤ limit →
    ((codec format).Survives limit f ↔ ∀ d ∈ f.doubles, format.Keeps d) := by
  -- every case first finds the depth that it needs; with children it is that of the deepest one
  induction f using Filter.induction with
  | compare field op value =>
    intro limit h
    rw [depth] at h
    obtain ⟨rest, rfl⟩ := Nat.exists_eq_add_of_le' (show 3 ≤ limit by omega)
    rw [compare_survives_iff, Value.survives_iff hformat, doubles_compare]
  | oneOf field values =>
    intro limit h
    rw [depth] at h
    obtain ⟨rest, rfl⟩ := Nat.exists_eq_add_of_le' h
    rw [oneOf_survives_iff, doubles_oneOf]
    exact forall₂_congr fun v _ => Value.survives_iff hformat
  | rank field op n =>
    intro limit h
    rw [depth] at h
    obtain ⟨rest, rfl⟩ := Nat.exists_eq_add_of_le' (show 2 ≤ limit by omega)
    have hread : (codec format).Survives (rest + 2) (rank field op n) :=
      readRank_eq hformat rest field op n
    exact iff_of_true hread (by simp [doubles, nodes, ownValues])
  | not child ih =>
    intro limit h
    rw [depth] at h
    obtain ⟨rest, rfl⟩ := Nat.exists_eq_add_of_le' (show 1 ≤ limit by omega)
    have hdoubles : (∀ d ∈ (not child).doubles, format.Keeps d) ↔
        ∀ d ∈ child.doubles, format.Keeps d := by
      simp only [doubles, nodes, List.flatMap_cons, ownValues, List.nil_append]
    rw [not_survives_iff, ih (by omega), hdoubles]
  | all children ih =>
    intro limit h
    rw [depth] at h
    obtain ⟨rest, rfl⟩ := Nat.exists_eq_add_of_le' (show 2 ≤ limit by omega)
    rw [all_survives_iff, doubles_of_children (by rw [nodes]) rfl]
    refine forall₂_congr fun f hf => ih f hf ?_
    have := depth_le_depthOfList hf
    omega
  | any children ih =>
    intro limit h
    rw [depth] at h
    obtain ⟨rest, rfl⟩ := Nat.exists_eq_add_of_le' (show 2 ≤ limit by omega)
    rw [any_survives_iff, doubles_of_children (by rw [nodes]) rfl]
    refine forall₂_congr fun f hf => ih f hf ?_
    have := depth_le_depthOfList hf
    omega

omit hformat in
/-- A combination is not readable if one of its children is not. -/
theorem children_unreadable {f : Filter} {children : List Filter}
    (hnodes : f.nodes = f :: nodesOfList children) (hown : f.ownValues = [])
    (hinfinite : ¬∀ d ∈ f.doubles, d.isFinite = true) {limit : Nat}
    (ih : ∀ g ∈ children, (¬∀ d ∈ g.doubles, d.isFinite = true) →
      (codec format).decode limit ((codec format).encode g) = none) :
    (toDocuments format children).mapM (ofDocument format limit) = none := by
  rw [doubles_of_children hnodes hown] at hinfinite
  push Not at hinfinite
  obtain ⟨g, hg, d, hd, hinfinite⟩ := hinfinite
  rw [toDocuments_eq]
  exact mapM_eq_none_of_mem (List.mem_map_of_mem hg) (ih g hg fun hall => hinfinite (hall d hd))

/-- **A filter that names a double that is not finite cannot be read back.** -/
theorem unreadable (f : Filter) : ∀ {limit : Nat}, 2 * f.depth + 2 ≤ limit →
    (¬∀ d ∈ f.doubles, d.isFinite = true) →
      (codec format).decode limit ((codec format).encode f) = none := by
  induction f using Filter.induction with
  | compare field op value =>
    intro limit h hinfinite
    rw [depth] at h
    obtain ⟨rest, rfl⟩ := Nat.exists_eq_add_of_le' (show 3 ≤ limit by omega)
    rw [doubles_compare] at hinfinite
    refine (readCompare_eq (rest + 1) field op value).trans ?_
    exact congrArg (Option.map _) (Value.unreadable hformat hinfinite rest)
  | oneOf field values =>
    intro limit h hinfinite
    rw [depth] at h
    obtain ⟨rest, rfl⟩ := Nat.exists_eq_add_of_le' h
    rw [doubles_oneOf] at hinfinite
    -- one value of the list cannot be read, and so the list cannot
    push Not at hinfinite
    obtain ⟨v, hv, d, hd, hinfinite⟩ := hinfinite
    have hvalues : (Codec.list (Value.codec format)).decode (rest + 2)
        ((Codec.list (Value.codec format)).encode values) = none :=
      mapM_eq_none_of_mem (List.mem_map_of_mem hv)
        (Value.unreadable hformat (fun hall => hinfinite (hall d hd)) rest)
    refine (readOneOf_eq (rest + 2) field values).trans ?_
    rw [hvalues, Option.map_none]
  | rank field op n =>
    intro limit _ hinfinite
    -- a condition on a rank holds no double at all
    exact absurd (by simp [doubles, nodes, ownValues]) hinfinite
  | not child ih =>
    intro limit h hinfinite
    rw [depth] at h
    obtain ⟨rest, rfl⟩ := Nat.exists_eq_add_of_le' (show 1 ≤ limit by omega)
    have hchild : ¬∀ d ∈ child.doubles, d.isFinite = true := by
      simpa only [doubles, nodes, List.flatMap_cons, ownValues, List.nil_append] using hinfinite
    change ((codec format).decode rest ((codec format).encode child)).map not = none
    rw [ih (by omega) hchild, Option.map_none]
  | all children ih =>
    intro limit h hinfinite
    rw [depth] at h
    obtain ⟨rest, rfl⟩ := Nat.exists_eq_add_of_le' (show 2 ≤ limit by omega)
    change ((toDocuments format children).mapM (ofDocument format rest)).map all = none
    rw [children_unreadable (by rw [nodes]) rfl hinfinite fun g hg => ih g hg ?_, Option.map_none]
    have := depth_le_depthOfList hg
    omega
  | any children ih =>
    intro limit h hinfinite
    rw [depth] at h
    obtain ⟨rest, rfl⟩ := Nat.exists_eq_add_of_le' (show 2 ≤ limit by omega)
    change ((toDocuments format children).mapM (ofDocument format rest)).map any = none
    rw [children_unreadable (by rw [nodes]) rfl hinfinite fun g hg => ih g hg ?_, Option.map_none]
    have := depth_le_depthOfList hg
    omega

end Lawful

end Filter

/-! ## Queries -/

namespace Query

theorem toDocument_writes {q : Query} (hlimit : ∀ n ∈ q.limit, n < UInt64.size) :
    format.Writes ((codec format).encode q) := by
  refine ofMembers_writes ?_
  simp only [List.forall_mem_cons]
  exact ⟨text_writes q.recordType, Filter.toDocument_writes q.filter,
    option_writes fun n hn => nat_writes (hlimit n hn),
    option_writes fun fields _ => list_writes fun s _ => text_writes s, fun m h => nomatch h⟩

section Lawful

variable (hformat : format.Lawful)
include hformat

/-- Only the filter of a query can be lost. -/
theorem ofDocument_toDocument {q : Query} (hlimit : ∀ n ∈ q.limit, n < UInt64.size)
    (limit : Nat) : (codec format).decode (limit + 2) ((codec format).encode q) =
      ((Filter.codec format).decode (limit + 1) ((Filter.codec format).encode q.filter)).map
        ({ q with filter := · }) := by
  have htype : Codec.text.decode (limit + 1) (.ofString q.recordType) = some q.recordType :=
    text_survives (limit + 1) q.recordType
  have hcount : (Codec.option (.nat format)).decode (limit + 1)
      ((Codec.option (.nat format)).encode q.limit) = some q.limit :=
    option_survives (by simp [Codec.nat]) fun n hn => nat_survives hformat _ (hlimit n hn)
  have hfields : (Codec.option (.list .text)).decode (limit + 1)
      ((Codec.option (.list .text)).encode q.requiredFields) = some q.requiredFields :=
    option_survives (by simp [Codec.list]) fun fs _ =>
      list_survives_iff.2 fun s _ => text_survives limit s
  change ofDocument format (limit + 2) (q.toDocument format) =
    ((Filter.codec format).decode (limit + 1) (q.filter.toDocument format)).map _
  rw [ofDocument, toDocument, Fields.ofDocument_ofMembers (by simp) (by simp)]
  cases hfilter : (Filter.codec format).decode (limit + 1) (q.filter.toDocument format) <;>
    simp [Fields.required, Fields.optional, Fields.get?, htype, hfilter, hcount, hfields]

theorem survives_iff {q : Query} (hlimit : ∀ n ∈ q.limit, n < UInt64.size) {limit : Nat} :
    (codec format).Survives (limit + 2) q ↔
      (Filter.codec format).Survives (limit + 1) q.filter := by
  rw [Codec.Survives, Codec.Survives, ofDocument_toDocument hformat hlimit,
    Option.map_eq_some_iff]
  constructor
  · rintro ⟨f, hf, hq⟩
    rw [hf, ← congrArg Query.filter hq]
  · exact fun hf => ⟨q.filter, hf, rfl⟩

/-- The text of a query is nested less deeply than a reader allows. -/
theorem parse_render_iff {q : Query} (hdepth : q.filter.depth ≤ 20)
    (hlimit : ∀ n ∈ q.limit, n < UInt64.size) :
    format.parse (codec format) (format.render (codec format) q) = some q ↔
      ∀ d ∈ q.filter.doubles, format.Keeps d := by
  obtain ⟨spare, hspare⟩ := Nat.exists_eq_add_of_le' hformat.nesting
  rw [hformat.parse_render (toDocument_writes hlimit), hspare]
  change (codec format).Survives (spare + 125 + 2) q ↔ _
  rw [survives_iff hformat hlimit, Filter.survives_iff hformat q.filter (by omega)]

/-- A query that names a double that is not finite cannot be read back at all. -/
theorem parse_render_eq_none {q : Query} (hdepth : q.filter.depth ≤ 20)
    (hlimit : ∀ n ∈ q.limit, n < UInt64.size)
    (hinfinite : ¬∀ d ∈ q.filter.doubles, d.isFinite = true) :
    format.parse (codec format) (format.render (codec format) q) = none := by
  obtain ⟨spare, hspare⟩ := Nat.exists_eq_add_of_le' hformat.nesting
  rw [hformat.parse_render (toDocument_writes hlimit), hspare]
  change (codec format).decode (spare + 125 + 2) ((codec format).encode q) = none
  rw [ofDocument_toDocument hformat hlimit, q.filter.unreadable hformat (by omega) hinfinite,
    Option.map_none]

/-- **A query survives its text just when each double of its filter does,** in any lawful
format. One that is not finite never does, and its query cannot be read back at all. Limits
are machine words. -/
theorem survives_text (q : Query) (hdepth : q.filter.depth ≤ 20)
    (hlimit : ∀ n ∈ q.limit, n < UInt64.size) :
    (format.parse (codec format) (format.render (codec format) q) = some q ↔
        ∀ d ∈ q.filter.doubles, d.isFinite = true ∧ format.Keeps d) ∧
      ((∃ d ∈ q.filter.doubles, d.isFinite = false) →
        format.parse (codec format) (format.render (codec format) q) = none) := by
  refine ⟨(parse_render_iff hformat hdepth hlimit).trans (forall₂_congr fun d _ => ?_), ?_⟩
  · exact ⟨fun h => ⟨hformat.isFinite_of_keeps h, h⟩, And.right⟩
  · rintro ⟨d, hd, hinfinite⟩
    refine parse_render_eq_none hformat hdepth hlimit fun hfinite => ?_
    rw [hfinite d hd] at hinfinite
    cases hinfinite

end Lawful

open Document.Format

/-- Conditions of every kind, with `0.1` and `-2.5e-10` among the values. -/
def various : Query where
  recordType := "t"
  filter := .not (.all [.oneOf "a" [.double ⟨0x3fb999999999999a⟩, .null, .text "\"\n"],
    .rank "b" .lt 3,
    .any [.compare "c" .ge (.int (-5)), .compare "d" .ne (.double ⟨0xbdf12e0be826d695⟩)]])
  limit := some 10
  requiredFields := some ["a", "é"]

theorem survives_text_various : standard.Lawful ∧ various.filter.depth ≤ 20 ∧
    (10 ∈ various.limit ∧ 10 < UInt64.size) ∧
    various.filter.doubles = [⟨0x3fb999999999999a⟩, ⟨0xbdf12e0be826d695⟩] ∧
    (∀ d ∈ various.filter.doubles, d.isFinite = true ∧ standard.Keeps d) ∧
    standard.parse (codec standard) (standard.render (codec standard) various) = some various := by
  have hdepth : various.filter.depth ≤ 20 := by decide +kernel
  have hlimit : ∀ n ∈ various.limit, n < UInt64.size := by
    rintro n ⟨⟩
    decide
  have hdoubles : various.filter.doubles = [⟨0x3fb999999999999a⟩, ⟨0xbdf12e0be826d695⟩] := rfl
  have hkept : ∀ d ∈ various.filter.doubles, d.isFinite = true ∧ standard.Keeps d := by
    rw [hdoubles, List.forall_mem_cons, List.forall_mem_singleton]
    exact ⟨⟨by decide, standard_keeps ⟨by decide, .inr (by decide +kernel)⟩⟩,
      by decide, standard_keeps ⟨by decide, .inr (by decide +kernel)⟩⟩
  exact ⟨standard_lawful, hdepth, ⟨rfl, by decide⟩, hdoubles, hkept,
    (survives_text standard_lawful various hdepth hlimit).1.2 hkept⟩

/-- The records of a field that equals a NaN. -/
def equalToNan : Query where
  recordType := "t"
  filter := .compare "a" .eq (.double ⟨0x7ff8000000000000⟩)

/-- A NaN is written as `null`, and that is no double. -/
theorem not_every_survives_text : equalToNan.filter.depth ≤ 20 ∧
    standard.parse (codec standard) (standard.render (codec standard) equalToNan) = none := by
  have hdepth : equalToNan.filter.depth ≤ 20 := by simp [equalToNan, Filter.depth]
  refine ⟨hdepth, parse_render_eq_none standard_lawful hdepth (fun _ h => nomatch h) fun h => ?_⟩
  exact absurd (h ⟨0x7ff8000000000000⟩ (List.mem_singleton.2 rfl)) (by decide)

end Query

end RecordLayer
