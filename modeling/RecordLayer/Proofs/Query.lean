import RecordLayer.Proofs.Filter.Text
import RecordLayer.Query

/-!
# The canonical text of a query

Two queries have one canonical text exactly if they ask for the same: records of one type, by
filters that are alike, as many of them, and the same fields in whatever order. Each part of the
text shows where it ends, so the parts are told apart from left to right; and each part is written
from what the queries have in common.
-/

namespace RecordLayer

open Text

theorem Text.literalList_inj {as bs : List String} (h : literalList as = literalList bs) :
    as = bs := by
  have hchars : ∀ texts : List String, (literalList texts).toList =
      '[' :: ((", ".intercalate (texts.map literal)).toList ++ ']' :: []) := fun texts => by
    rw [literalList, String.toList_append, String.toList_append]
    rfl
  have h := congrArg String.toList h
  rw [hchars, hchars] at h
  injection h with _ h
  have hstart : ∀ text, ∃ c rest, (literal text).toList = c :: rest ∧ c ≠ ']' := by
    intro text
    obtain ⟨rest, hrest⟩ := toList_literal text
    exact ⟨'"', rest, hrest, by decide⟩
  exact (intercalate_map_append_inj rfl (by decide) (by decide) hstart
    (fun _ _ => literal_append_inj) h).1

namespace Query

/-- The text of a limit. -/
def limitText : Option Nat → String
  | some n => toString n
  | none => "none"

/-- The text of the required fields. -/
def fieldsText : Option (List String) → String
  | some fields => literalList (sortDistinct fields)
  | none => "*"

theorem canonical_chars (q : Query) : q.canonical.toList = "type=".toList ++
    ((literal q.recordType).toList ++ (";filter=".toList ++ (q.filter.canonical.toList ++
      (";limit=".toList ++ ((limitText q.limit).toList ++
        (";fields=".toList ++ (fieldsText q.requiredFields).toList)))))) := by
  have htext : q.canonical = "type=" ++ literal q.recordType ++ ";filter=" ++ q.filter.canonical ++
      ";limit=" ++ limitText q.limit ++ ";fields=" ++ fieldsText q.requiredFields := by
    unfold canonical limitText fieldsText
    rfl
  rw [htext]
  simp only [String.toList_append, List.append_assoc]

theorem isPlain_of_mem_limitText {limit : Option Nat} {c : Char}
    (h : c ∈ (limitText limit).toList) :
    isPlain c = true := by
  cases limit with
  | none =>
    have hnone : ['n', 'o', 'n', 'e'].all isPlain = true := rfl
    exact List.all_eq_true.1 hnone c h
  | some n =>
    rw [limitText, toList_toString_nat] at h
    exact isPlain_of_mem_toDigits h

theorem limitText_inj {limit limit' : Option Nat}
    (h : (limitText limit).toList = (limitText limit').toList) : limit = limit' := by
  have hnone : ∀ n : Nat, (limitText none).toList ≠ (limitText (some n)).toList := fun n h => by
    rw [limitText, limitText, toList_toString_nat] at h
    have hmem : 'n' ∈ Nat.toDigits 10 n := by rw [← h]; decide
    have hdigit := Nat.isDigit_of_mem_toDigits (by decide) (by decide) hmem
    cases hdigit
  cases limit with
  | none =>
    cases limit' with
    | none => rfl
    | some n => exact absurd h (hnone n)
  | some m =>
    cases limit' with
    | none => exact absurd h.symm (hnone m)
    | some n =>
      rw [limitText, limitText, toList_toString_nat, toList_toString_nat] at h
      rw [toDigits_ten_inj h]

/-- Both queries ask for whole records, or for the same fields. -/
def RequiresAlike : Option (List String) → Option (List String) → Prop
  | none, none => True
  | some fields, some fields' => ∀ f, f ∈ fields ↔ f ∈ fields'
  | _, _ => False

theorem fieldsText_inj {fields fields' : Option (List String)}
    (h : fieldsText fields = fieldsText fields') : RequiresAlike fields fields' := by
  have hstar : ∀ texts : List String, literalList texts ≠ "*" := fun texts h => by
    have h := congrArg String.toList h
    rw [literalList, String.toList_append, String.toList_append] at h
    cases h
  cases fields with
  | none =>
    cases fields' with
    | none => trivial
    | some fs => exact absurd h.symm (hstar _)
  | some fs =>
    cases fields' with
    | none => exact absurd h (hstar _)
    | some fs' =>
      intro f
      rw [← mem_sortDistinct, literalList_inj h, mem_sortDistinct]

/-! ## Queries that ask for the same -/

/-- The queries ask for the same records, as many of them, and for the same fields. -/
structure Alike (q q' : Query) : Prop where
  recordType : q.recordType = q'.recordType
  filter : q.filter.Alike q'.filter
  limit : q.limit = q'.limit
  fields : RequiresAlike q.requiredFields q'.requiredFields

/-- Queries with one canonical text ask for the same. -/
theorem canonical_inj {q q' : Query} (h : q.canonical = q'.canonical) : q.Alike q' := by
  have hmark : ∀ {mark : List Char} (rest : List Char), mark.head? = some ';' →
      Ends (mark ++ rest) := by
    intro mark rest hhead
    obtain ⟨tail, rfl⟩ := List.head?_eq_some_iff.1 hhead
    exact ends_cons (by decide) _
  -- each part is read off from the left: it ends at a quote or at the mark of the next part
  have h := congrArg String.toList h
  rw [canonical_chars, canonical_chars] at h
  obtain ⟨htype, h⟩ := literal_append_inj (List.append_cancel_left h)
  obtain ⟨hfilter, h⟩ := Filter.canonical_append_inj q.filter (hmark _ rfl)
    (hmark _ rfl) (List.append_cancel_left h)
  obtain ⟨hlimit, h⟩ := plain_append_inj (fun _ => isPlain_of_mem_limitText)
    (fun _ => isPlain_of_mem_limitText) (hmark _ rfl) (hmark _ rfl) (List.append_cancel_left h)
  have hfields := String.toList_inj.1 (List.append_cancel_left h)
  exact ⟨htype, hfilter, limitText_inj hlimit, fieldsText_inj hfields⟩

theorem fieldsText_eq {fields fields' : Option (List String)} (h : RequiresAlike fields fields') :
    fieldsText fields = fieldsText fields' := by
  cases fields with
  | none =>
    cases fields' with
    | none => rfl
    | some _ => cases h
  | some fs =>
    cases fields' with
    | none => cases h
    | some fs' => rw [fieldsText, fieldsText, sortDistinct_eq h]

theorem Alike.canonical_eq {q q' : Query} (h : q.Alike q') : q.canonical = q'.canonical := by
  refine String.toList_inj.1 ?_
  rw [canonical_chars, canonical_chars, h.recordType, h.filter.canonical_eq, h.limit,
    fieldsText_eq h.fields]

/-- **Two queries have one canonical text exactly if they ask for the same.** Doubles in
their filters are the same only with the same bits, so the two zeros and the NaN payloads
are kept apart. -/
theorem same_text_iff_alike {q q' : Query} : q.canonical = q'.canonical ↔ q.Alike q' :=
  ⟨canonical_inj, Alike.canonical_eq⟩

end Query

end RecordLayer
