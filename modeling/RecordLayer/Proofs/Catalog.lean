import RecordLayer.Catalog

/-!
# Registered catalogs

A catalog that was built by registration alone has each name once, and every index in it is over
fields of a registered type. Registration checks a name when it is taken and a field when it is
used, so later registrations cannot take back what earlier ones found.
-/

namespace RecordLayer

/-! ## Lists by name -/

theorem insertByName_perm {α : Type} (name : α → String) (a : α) (l : List α) :
    (insertByName name a l).Perm (a :: l) := by
  induction l with
  | nil => exact .refl _
  | cons b rest ih =>
    unfold insertByName
    split
    · exact .refl _
    · exact (ih.cons b).trans (.swap _ _ _)

/-- Where names are not repeated, an element is found by its name. -/
theorem find?_name_eq_some {α : Type} {name : α → String} {l : List α}
    (h : (l.map name).Nodup) {a : α} (ha : a ∈ l) :
    l.find? (fun b => name b == name a) = some a := by
  induction l with
  | nil => simp at ha
  | cons b rest ih =>
    rw [List.map_cons, List.nodup_cons] at h
    rcases List.mem_cons.1 ha with rfl | ha
    · simp
    · have hne : name b ≠ name a := fun heq => h.1 (heq ▸ List.mem_map_of_mem ha)
      rw [List.find?_cons_of_neg (by simpa using hne)]
      exact ih h.2 ha

namespace Catalog

/-- What registration makes of the empty catalog. -/
inductive Registered : Catalog → Prop
  | empty : Registered .empty
  | type {c c' : Catalog} {t : RecordType} (h : Registered c) (ht : c.registerType t = .ok c') :
    Registered c'
  | index {c c' : Catalog} {i : Index} (h : Registered c) (hi : c.registerIndex i = .ok c') :
    Registered c'

/-- An index that fits a record type. -/
structure Fits (t : RecordType) (i : Index) : Prop where
  keyFields : i.keyFields ≠ []
  rank : i.isRank = true → i.keyFields.length = 1
  field : ∀ f ∈ i.keyFields ++ i.coveringFields, t.hasField f = true

/-- Plans may scan a rank index. -/
theorem Fits.plannable {t : RecordType} {i : Index} (h : Fits t i) (hrank : i.isRank = true) :
    i.isPlannable = true := by
  have hkind : i.kind = .rank := by simpa [Index.isRank] using hrank
  simp [Index.isPlannable, hkind, h.keyFields]

/-- What registration keeps. -/
structure Sound (c : Catalog) : Prop where
  typeNames : (c.recordTypes.map (·.name)).Nodup
  indexNames : (c.indexes.map (·.name)).Nodup
  index : ∀ i ∈ c.indexes, ∃ t ∈ c.recordTypes, t.name = i.recordType ∧ Fits t i

theorem recordType?_eq_none {c : Catalog} {name : String}
    (h : ¬(c.recordType? name).isSome = true) : name ∉ c.recordTypes.map (·.name) := by
  intro hm
  obtain ⟨t, ht, rfl⟩ := List.mem_map.1 hm
  refine h (List.find?_isSome.2 ⟨t, ht, by simp⟩)

theorem index?_eq_none {c : Catalog} {name : String} (h : ¬(c.index? name).isSome = true) :
    name ∉ c.indexes.map (·.name) := by
  intro hm
  obtain ⟨i, hi, rfl⟩ := List.mem_map.1 hm
  exact h (List.find?_isSome.2 ⟨i, hi, by simp⟩)

theorem mem_of_recordType? {c : Catalog} {name : String} {t : RecordType}
    (h : c.recordType? name = some t) : t ∈ c.recordTypes ∧ t.name = name :=
  ⟨List.mem_of_find?_eq_some h, by simpa using List.find?_some h⟩

theorem Sound.registerType {c c' : Catalog} {t : RecordType} (h : c.Sound)
    (ht : c.registerType t = .ok c') : c'.Sound := by
  unfold Catalog.registerType at ht
  split at ht
  · cases ht
  · rename_i hnone
    obtain rfl := Except.ok.inj ht
    have hperm := insertByName_perm (·.name) t c.recordTypes
    refine ⟨?_, h.indexNames, fun i hi => ?_⟩
    · refine ((hperm.map (·.name)).nodup_iff).2 ?_
      exact List.nodup_cons.2 ⟨recordType?_eq_none hnone, h.typeNames⟩
    · obtain ⟨t', ht', hname, hfits⟩ := h.index i hi
      exact ⟨t', hperm.mem_iff.2 (List.mem_cons_of_mem _ ht'), hname, hfits⟩

theorem Sound.registerIndex {c c' : Catalog} {i : Index} (h : c.Sound)
    (hi : c.registerIndex i = .ok c') : c'.Sound := by
  unfold Catalog.registerIndex at hi
  split at hi
  · cases hi
  · rename_i hnone
    cases hc : c.recordType? i.recordType with
    | none => simp [hc] at hi
    | some t =>
      simp only [hc] at hi
      split at hi
      · cases hi
      · rename_i hkey
        split at hi
        · cases hi
        · rename_i hrank
          split at hi
          · cases hi
          · rename_i hfields
            obtain rfl := Except.ok.inj hi
            have hperm := insertByName_perm (·.name) i c.indexes
            refine ⟨h.typeNames, ?_, fun j hj => ?_⟩
            · refine ((hperm.map (·.name)).nodup_iff).2 ?_
              exact List.nodup_cons.2 ⟨index?_eq_none hnone, h.indexNames⟩
            · rcases List.mem_cons.1 (hperm.mem_iff.1 hj) with rfl | hj
              · obtain ⟨ht, hname⟩ := mem_of_recordType? hc
                refine ⟨t, ht, hname, by simpa using hkey, fun hr => ?_, fun f hf => ?_⟩
                · cases hlen : decide (j.keyFields.length = 1) with
                  | true => simpa using hlen
                  | false => exact absurd ⟨hr, by simpa using hlen⟩ hrank
                · simpa using List.find?_eq_none.1 hfields f hf
              · exact h.index j hj

/-- **Registration keeps names apart and indexes over registered fields.** -/
theorem Registered.sound {c : Catalog} (h : Registered c) : c.Sound := by
  induction h with
  | empty => exact ⟨by simp [Catalog.empty], by simp [Catalog.empty], by simp [Catalog.empty]⟩
  | type _ ht ih => exact ih.registerType ht
  | index _ hi ih => exact ih.registerIndex hi

namespace Sound

variable {c : Catalog}

theorem recordType?_of_mem (h : c.Sound) {t : RecordType} (ht : t ∈ c.recordTypes) :
    c.recordType? t.name = some t := find?_name_eq_some h.typeNames ht

theorem fits (h : c.Sound) {t : RecordType} (ht : c.recordType? t.name = some t) {i : Index}
    (hi : i ∈ c.indexesOf t.name) : Fits t i := by
  obtain ⟨hmem, hname⟩ := List.mem_filter.1 hi
  obtain ⟨t', ht', hname', hfits⟩ := h.index i hmem
  have hfind := h.recordType?_of_mem ht'
  rw [hname', show i.recordType = t.name by simpa using hname, ht] at hfind
  rwa [Option.some.inj hfind]

theorem indexesOf_nodup (h : c.Sound) (recordType : String) :
    ((c.indexesOf recordType).map (·.name)).Nodup :=
  List.Pairwise.sublist (List.Sublist.map _ List.filter_sublist) h.indexNames

theorem plannable_nodup (h : c.Sound) (recordType : String) :
    ((c.plannableIndexes recordType).map (·.name)).Nodup :=
  List.Pairwise.sublist (List.Sublist.map _ List.filter_sublist) (h.indexesOf_nodup recordType)

end Sound

theorem mem_plannableIndexes {c : Catalog} {recordType : String} {i : Index} :
    i ∈ c.plannableIndexes recordType ↔
      i ∈ c.indexesOf recordType ∧ i.isPlannable = true := List.mem_filter

theorem recordType_of_mem_indexesOf {c : Catalog} {recordType : String} {i : Index}
    (h : i ∈ c.indexesOf recordType) : i.recordType = recordType := by
  simpa using (List.mem_filter.1 h).2

/-- The index that answers ranks of a field is one that plans may scan, over that field alone. -/
theorem Sound.rankIndex {c : Catalog} (h : c.Sound) {t : RecordType}
    (ht : c.recordType? t.name = some t) {field : String} {i : Index}
    (hi : c.rankIndex? t.name field = some i) :
    i ∈ c.plannableIndexes t.name ∧ i.isRank = true ∧ i.keyFields = [field] := by
  have hmem := List.mem_of_find?_eq_some hi
  have hrank : i.isRank = true := List.find?_some hi
  obtain ⟨hof, hlead⟩ := List.mem_filter.1 hmem
  have hfits := h.fits ht hof
  obtain ⟨f, hf⟩ := List.length_eq_one_iff.1 (hfits.rank hrank)
  have hfield : f = field := by simpa [Index.leadingField?, hf] using hlead
  exact ⟨mem_plannableIndexes.2 ⟨hof, hfits.plannable hrank⟩, hrank, by rw [hf, hfield]⟩

end Catalog

end RecordLayer
