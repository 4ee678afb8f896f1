import RecordLayer.Filter.Text
import RecordLayer.Proofs.Filter.Evaluation
import RecordLayer.Proofs.Text.Order
import RecordLayer.Proofs.Value.Text

/-!
# Canonical texts identify filters

Two filters are alike if one becomes the other by changing the order of the children of conjunctions
and disjunctions and the order and repetition of listed values, anywhere in the tree. Alike filters
hold for the same records.

**Two filters have one canonical text exactly if they are alike.** A canonical text shows where it
ends, so from equal texts the pieces can be read off one after the other. The children of a
combination are written in the order of their texts; equal lists of texts therefore come from the
same children up to their order.
-/

namespace RecordLayer.Filter

open Text

/-- The same filter up to the order of combined parts and the order and repetition of values. -/
inductive Alike : Filter → Filter → Prop
  | refl (f : Filter) : Alike f f
  | trans {f g h : Filter} (hfg : Alike f g) (hgh : Alike g h) : Alike f h
  | oneOf (field : String) {vs ws : List Value} (h : ∀ v, v ∈ vs ↔ v ∈ ws) :
    Alike (.oneOf field vs) (.oneOf field ws)
  | not {f g : Filter} (h : Alike f g) : Alike (.not f) (.not g)
  | permAll {fs gs : List Filter} (h : fs.Perm gs) : Alike (.all fs) (.all gs)
  | permAny {fs gs : List Filter} (h : fs.Perm gs) : Alike (.any fs) (.any gs)
  | childAll (before after : List Filter) {f g : Filter} (h : Alike f g) :
    Alike (.all (before ++ f :: after)) (.all (before ++ g :: after))
  | childAny (before after : List Filter) {f g : Filter} (h : Alike f g) :
    Alike (.any (before ++ f :: after)) (.any (before ++ g :: after))

/-- **Alike filters hold for the same records.** -/
theorem Alike.holds_eq {f g : Filter} (h : f.Alike g) (value : String → Value)
    (rankOf : String → Value → UInt64) : f.holds value rankOf = g.holds value rankOf := by
  induction h with
  | refl => rfl
  | trans _ _ ihfg ihgh => exact ihfg.trans ihgh
  | oneOf field h =>
    rw [holds_oneOf, holds_oneOf, Bool.eq_iff_iff, List.contains_iff_mem, List.contains_iff_mem]
    exact h _
  | not _ ih => rw [holds_not, holds_not, ih]
  | permAll h => rw [holds_all, holds_all, h.all_eq]
  | permAny h => rw [holds_any, holds_any, h.any_eq]
  | childAll before after _ ih =>
    rw [holds_all, holds_all, List.all_append, List.all_append, List.all_cons, List.all_cons, ih]
  | childAny before after _ ih =>
    rw [holds_any, holds_any, List.any_append, List.any_append, List.any_cons, List.any_cons, ih]

/-! ## Alike filters have one text -/

theorem joinSorted_eq_of_perm {as bs : List String} (h : as.Perm bs) :
    joinSorted as = joinSorted bs := by
  rw [joinSorted, sort_eq_of_perm h, joinSorted]

theorem Alike.canonical_eq {f g : Filter} (h : f.Alike g) : f.canonical = g.canonical := by
  induction h with
  | refl => rfl
  | trans _ _ ihfg ihgh => exact ihfg.trans ihgh
  | oneOf field h => rw [canonical, canonical, Value.sortDistinct_eq h]
  | not _ ih => rw [canonical, canonical, ih]
  | permAll h => rw [canonical_all, canonical_all, joinSorted_eq_of_perm (h.map canonical)]
  | permAny h => rw [canonical_any, canonical_any, joinSorted_eq_of_perm (h.map canonical)]
  | childAll before after _ ih =>
    rw [canonical_all, canonical_all]
    simp only [List.map_append, List.map_cons, ih]
  | childAny before after _ ih =>
    rw [canonical_any, canonical_any]
    simp only [List.map_append, List.map_cons, ih]

/-! ## Reading a text back -/

/-- The characters of a comparator's symbol. -/
def symbolChars : Comparator → List Char
  | .eq => ['=']
  | .ne => ['!', '=']
  | .lt => ['<']
  | .le => ['<', '=']
  | .gt => ['>']
  | .ge => ['>', '=']

theorem toList_symbol (op : Comparator) : op.symbol.toList = symbolChars op := by
  cases op <;> rfl

/-- A symbol shows where it ends, if no equality sign follows it. -/
theorem symbol_append_inj {op op' : Comparator} {c c' : Char} {s s' : List Char} (hc : c ≠ '=')
    (hc' : c' ≠ '=') (h : symbolChars op ++ c :: s = symbolChars op' ++ c' :: s') :
    op = op' ∧ c :: s = c' :: s' := by
  cases op <;> cases op' <;> grind [symbolChars]

/-- The first character of a canonical text. -/
def lead : Filter → Char
  | .compare .. | .oneOf .. => '"'
  | .rank .. => 'r'
  | .not _ => 'n'
  | .all _ => 'a'
  | .any _ => 'o'

theorem exists_canonical_cons (f : Filter) : ∃ rest, f.canonical.toList = f.lead :: rest := by
  cases f with
  | compare field op value =>
    obtain ⟨rest, hrest⟩ := toList_literal field
    exact ⟨_, by rw [canonical, String.toList_append, String.toList_append, hrest]; rfl⟩
  | oneOf field values =>
    obtain ⟨rest, hrest⟩ := toList_literal field
    exact ⟨_, by
      rw [canonical, String.toList_append, String.toList_append, String.toList_append, hrest]
      rfl⟩
  | rank field op n =>
    exact ⟨_, by
      rw [canonical, String.toList_append, String.toList_append, String.toList_append,
        String.toList_append]
      rfl⟩
  | not child => exact ⟨_, by rw [canonical, String.toList_append, String.toList_append]; rfl⟩
  | all children =>
    exact ⟨_, by rw [canonical_all, String.toList_append, String.toList_append]; rfl⟩
  | any children =>
    exact ⟨_, by rw [canonical_any, String.toList_append, String.toList_append]; rfl⟩

theorem lead_eq_of_append {f g : Filter} {s s' : List Char}
    (h : f.canonical.toList ++ s = g.canonical.toList ++ s') : f.lead = g.lead := by
  obtain ⟨rest, hf⟩ := exists_canonical_cons f
  obtain ⟨rest', hg⟩ := exists_canonical_cons g
  rw [hf, hg] at h
  injection h

/-- Lists of filters with the same texts can be matched up. -/
theorem alike_of_perm {combine : List Filter → Filter}
    (hperm : ∀ fs gs : List Filter, fs.Perm gs → (combine fs).Alike (combine gs))
    (hchild : ∀ (before after : List Filter) (f g : Filter), f.Alike g →
      (combine (before ++ f :: after)).Alike (combine (before ++ g :: after)))
    {fs : List Filter} (hfs : ∀ f ∈ fs, ∀ g : Filter, f.canonical = g.canonical → f.Alike g) :
    ∀ (before : List Filter) {gs : List Filter}, (fs.map canonical).Perm (gs.map canonical) →
      (combine (before ++ fs)).Alike (combine (before ++ gs)) := by
  induction fs with
  | nil =>
    intro before gs h
    obtain rfl : gs = [] := by simpa using h.symm.eq_nil
    exact .refl _
  | cons f rest ih =>
    intro before gs h
    -- the child of the same text on the other side is put in place first
    obtain ⟨g, hg, htext⟩ : ∃ g ∈ gs, g.canonical = f.canonical := by
      have : f.canonical ∈ gs.map canonical := h.subset (by simp)
      simpa using this
    have hgs : gs.Perm (g :: gs.erase g) := List.perm_cons_erase hg
    have hrest : (rest.map canonical).Perm ((gs.erase g).map canonical) := by
      have := h.trans (hgs.map canonical)
      rw [List.map_cons, List.map_cons, htext] at this
      exact this.cons_inv
    -- one child is replaced, the rest follows, and at last the children are put in order
    refine (hchild before rest f g (hfs f (by simp) g htext.symm)).trans ?_
    have hgo := ih (fun x hx => hfs x (List.mem_cons_of_mem _ hx)) (before ++ [g]) hrest
    rw [List.append_assoc, List.append_assoc, List.singleton_append] at hgo
    exact hgo.trans (hperm _ _ (hgs.symm.append_left before))

/-- The texts of the children of two combinations can be read off one after the other. -/
theorem children_append_inj {fs gs : List Filter} {s s' : List Char}
    (hfs : ∀ f ∈ fs, ∀ {g : Filter} {s s' : List Char}, Ends s → Ends s' →
      f.canonical.toList ++ s = g.canonical.toList ++ s' → f.Alike g ∧ s = s')
    (h : (joinSorted (fs.map canonical)).toList ++ ')' :: s =
      (joinSorted (gs.map canonical)).toList ++ ')' :: s') :
    (fs.map canonical).Perm (gs.map canonical) ∧ s = s' := by
  have hsource : ∀ {fs : List Filter}, ∀ a ∈ sort (fs.map canonical),
      ∃ f ∈ fs, f.canonical = a := by
    intro fs a ha
    simpa using (sort_perm _).subset ha
  have hmark : isPlain ')' = false ∧ ')' ≠ '"' ∧ ')' ≠ '=' := by decide
  have hstart : ∀ a ∈ sort (fs.map canonical) ++ sort (gs.map canonical),
      ∃ c rest, a.toList = c :: rest ∧ c ≠ ')' := by
    intro a ha
    obtain ⟨f, rfl⟩ : ∃ f : Filter, f.canonical = a := by
      rcases List.mem_append.1 ha with ha | ha
      · obtain ⟨f, -, hf⟩ := hsource a ha
        exact ⟨f, hf⟩
      · obtain ⟨f, -, hf⟩ := hsource a ha
        exact ⟨f, hf⟩
    obtain ⟨rest, hcons⟩ := exists_canonical_cons f
    exact ⟨f.lead, rest, hcons, by cases f <;> simp [lead]⟩
  have hpieces : ∀ a ∈ sort (fs.map canonical), ∀ b ∈ sort (gs.map canonical),
      ∀ {s s' : List Char}, Ends s → Ends s' → a.toList ++ s = b.toList ++ s' →
      a = b ∧ s = s' := by
    intro a ha b hb s s' hs hs' heq
    obtain ⟨f, hf, rfl⟩ := hsource a ha
    obtain ⟨g, -, rfl⟩ := hsource b hb
    obtain ⟨-, hrest⟩ := hfs f hf hs hs' heq
    rw [hrest] at heq
    exact ⟨String.toList_inj.1 (List.append_cancel_right heq), hrest⟩
  obtain ⟨htexts, hrest⟩ := intercalate_append_inj rfl hmark (by decide) hstart hpieces h
  exact ⟨perm_of_sort_eq htexts, hrest⟩

/-! ## The text of each kind of filter -/

section Characters

variable (field : String) (op : Comparator) (s : List Char)

theorem compare_chars (value : Value) : (canonical (.compare field op value)).toList ++ s =
    (literal field).toList ++ (symbolChars op ++ (value.canonical.toList ++ s)) := by
  rw [canonical, String.toList_append, String.toList_append, toList_symbol]
  simp only [List.append_assoc]

theorem oneOf_chars (values : List Value) : (canonical (.oneOf field values)).toList ++ s =
    (literal field).toList ++ " in [".toList ++
      ((",".intercalate ((Value.sortDistinct values).map Value.canonical)).toList ++ ']' :: s) := by
  rw [canonical, String.toList_append, String.toList_append, String.toList_append]
  simp only [List.append_assoc]
  rfl

theorem rank_chars (n : UInt64) : (canonical (.rank field op n)).toList ++ s =
    "rank(".toList ++ ((literal field).toList ++ ')' :: (symbolChars op ++
      (Nat.toDigits 10 n.toNat ++ s))) := by
  rw [canonical, String.toList_append, String.toList_append, String.toList_append,
    String.toList_append, toList_symbol, toList_toString_nat]
  simp only [List.append_assoc]
  rfl

theorem not_chars (child : Filter) : (canonical (.not child)).toList ++ s =
    "not(".toList ++ (child.canonical.toList ++ ')' :: s) := by
  rw [canonical, String.toList_append, String.toList_append]
  simp only [List.append_assoc]
  rfl

theorem all_chars (fs : List Filter) : (canonical (.all fs)).toList ++ s =
    "and(".toList ++ ((joinSorted (fs.map canonical)).toList ++ ')' :: s) := by
  rw [canonical_all, String.toList_append, String.toList_append]
  simp only [List.append_assoc]
  rfl

theorem any_chars (fs : List Filter) : (canonical (.any fs)).toList ++ s =
    "or(".toList ++ ((joinSorted (fs.map canonical)).toList ++ ')' :: s) := by
  rw [canonical_any, String.toList_append, String.toList_append]
  simp only [List.append_assoc]
  rfl

end Characters

section Leaves

variable {field field' : String} {op op' : Comparator} {s s' : List Char}

/-- The text of a comparison is not that of a listing. -/
theorem compare_chars_ne (value : Value) (values : List Value) :
    (canonical (.compare field op value)).toList ++ s ≠
      (canonical (.oneOf field' values)).toList ++ s' := by
  intro h
  rw [compare_chars, oneOf_chars, List.append_assoc] at h
  obtain ⟨-, h⟩ := literal_append_inj h
  have hspace : " in [".toList = [' ', 'i', 'n', ' ', '['] := rfl
  rw [hspace] at h
  cases op <;> injection h with h <;> cases h

/-- No value is written with an equality sign in front. -/
theorem exists_canonical_cons_ne (v : Value) :
    ∃ c rest, v.canonical.toList = c :: rest ∧ c ≠ '=' ∧ c ≠ ']' := by
  obtain ⟨c, rest, hc, hmark⟩ := Value.exists_canonical_cons v
  refine ⟨c, rest, hc, ?_⟩
  split at hmark
  · subst hmark
    decide
  · constructor <;>
    · rintro rfl
      exact absurd hmark (by decide)

theorem compare_append_inj {value value' : Value} (hs : Ends s) (hs' : Ends s')
    (h : (canonical (.compare field op value)).toList ++ s =
      (canonical (.compare field' op' value')).toList ++ s') :
    (Filter.compare field op value).Alike (.compare field' op' value') ∧ s = s' := by
  rw [compare_chars, compare_chars] at h
  obtain ⟨rfl, htail⟩ := literal_append_inj h
  obtain ⟨c, rest, hc, hcne, -⟩ := exists_canonical_cons_ne value
  obtain ⟨d, rest', hd, hdne, -⟩ := exists_canonical_cons_ne value'
  have hsplit : op = op' ∧ value.canonical.toList ++ s = value'.canonical.toList ++ s' := by
    rw [hc, hd] at htail ⊢
    exact symbol_append_inj hcne hdne htail
  obtain ⟨rfl, hvalues⟩ := hsplit
  obtain ⟨rfl, hrest⟩ := Value.canonical_append_inj hs hs' hvalues
  exact ⟨.refl _, hrest⟩

theorem oneOf_append_inj {values values' : List Value}
    (h : (canonical (.oneOf field values)).toList ++ s =
      (canonical (.oneOf field' values')).toList ++ s') :
    (Filter.oneOf field values).Alike (.oneOf field' values') ∧ s = s' := by
  rw [oneOf_chars, oneOf_chars, List.append_assoc, List.append_assoc] at h
  obtain ⟨rfl, htail⟩ := literal_append_inj h
  have htail := List.append_cancel_left htail
  have hstart : ∀ v : Value, ∃ c rest, v.canonical.toList = c :: rest ∧ c ≠ ']' := by
    intro v
    obtain ⟨c, rest, hc, -, hne⟩ := exists_canonical_cons_ne v
    exact ⟨c, rest, hc, hne⟩
  obtain ⟨hlist, hrest⟩ := intercalate_map_append_inj rfl (by decide) (by decide) hstart
    Value.canonical_append_inj htail
  refine ⟨.oneOf _ fun v => ?_, hrest⟩
  rw [← Value.mem_sortDistinct, hlist, Value.mem_sortDistinct]

theorem rank_append_inj {n n' : UInt64} (hs : Ends s) (hs' : Ends s')
    (h : (canonical (.rank field op n)).toList ++ s =
      (canonical (.rank field' op' n')).toList ++ s') :
    (Filter.rank field op n).Alike (.rank field' op' n') ∧ s = s' := by
  rw [rank_chars, rank_chars] at h
  obtain ⟨rfl, htail⟩ := literal_append_inj (List.append_cancel_left h)
  injection htail with _ htail
  -- a number begins with a digit, so a comparator is not taken to be longer than it is
  have hdigits : ∀ n, ∃ c rest, Nat.toDigits 10 n = c :: rest ∧ c ≠ '=' := fun n => by
    cases hn : Nat.toDigits 10 n with
    | nil => exact absurd hn Nat.toDigits_ne_nil
    | cons c rest =>
      refine ⟨c, rest, rfl, ?_⟩
      rintro rfl
      exact absurd (isPlain_of_mem_toDigits (hn ▸ List.mem_cons_self)) (by decide)
  obtain ⟨c, rest, hc, hcne⟩ := hdigits n.toNat
  obtain ⟨d, rest', hd, hdne⟩ := hdigits n'.toNat
  have hsplit : op = op' ∧ Nat.toDigits 10 n.toNat ++ s = Nat.toDigits 10 n'.toNat ++ s' := by
    rw [hc, hd] at htail ⊢
    exact symbol_append_inj hcne hdne htail
  obtain ⟨rfl, hnumber⟩ := hsplit
  obtain ⟨hn, hrest⟩ := plain_append_inj (fun _ => isPlain_of_mem_toDigits)
    (fun _ => isPlain_of_mem_toDigits) hs hs' hnumber
  obtain rfl := UInt64.toNat_inj.1 (toDigits_ten_inj hn)
  exact ⟨.refl _, hrest⟩

end Leaves

/-- **A canonical text shows where it ends,** and only an alike filter has it. -/
theorem canonical_append_inj (f : Filter) : ∀ {g : Filter} {s s' : List Char}, Ends s → Ends s' →
    f.canonical.toList ++ s = g.canonical.toList ++ s' → f.Alike g ∧ s = s' := by
  have hclose : ∀ rest, Ends (')' :: rest) := ends_cons (by decide)
  -- filters of two kinds differ in how their texts begin, but for a comparison and a membership,
  -- which begin alike and differ behind the field
  induction f using Filter.induction with
  | compare field op value =>
    intro g s s' hs hs' h
    have hlead := lead_eq_of_append h
    cases g with
    | compare field' op' value' => exact compare_append_inj hs hs' h
    | oneOf field' values => exact absurd h (compare_chars_ne _ _)
    | rank | not | all | any => exact absurd hlead (by simp [lead])
  | oneOf field values =>
    intro g s s' hs hs' h
    have hlead := lead_eq_of_append h
    cases g with
    | compare field' op value => exact absurd h.symm (compare_chars_ne _ _)
    | oneOf field' values' => exact oneOf_append_inj h
    | rank | not | all | any => exact absurd hlead (by simp [lead])
  | rank field op n =>
    intro g s s' hs hs' h
    have hlead := lead_eq_of_append h
    cases g with
    | rank field' op' n' => exact rank_append_inj hs hs' h
    | compare | oneOf | not | all | any => exact absurd hlead (by simp [lead])
  | not child ih =>
    intro g s s' hs hs' h
    have hlead := lead_eq_of_append h
    cases g with
    | not child' =>
      rw [not_chars, not_chars] at h
      obtain ⟨halike, hrest⟩ := ih (hclose s) (hclose s') (List.append_cancel_left h)
      exact ⟨.not halike, by injection hrest⟩
    | compare | oneOf | rank | all | any => exact absurd hlead (by simp [lead])
  | all children ih =>
    intro g s s' hs hs' h
    have hlead := lead_eq_of_append h
    cases g with
    | all children' =>
      rw [all_chars, all_chars] at h
      -- children are written in the order of their texts, so what is equal is a permutation of them
      obtain ⟨hperm, hrest⟩ := children_append_inj ih (List.append_cancel_left h)
      refine ⟨alike_of_perm (fun _ _ => .permAll) (fun b a _ _ => .childAll b a)
        (fun f hf g hfg => ?_) [] hperm, hrest⟩
      exact (ih f hf ends_nil ends_nil (by rw [hfg])).1
    | compare | oneOf | rank | not | any => exact absurd hlead (by simp [lead])
  | any children ih =>
    intro g s s' hs hs' h
    have hlead := lead_eq_of_append h
    cases g with
    | any children' =>
      rw [any_chars, any_chars] at h
      obtain ⟨hperm, hrest⟩ := children_append_inj ih (List.append_cancel_left h)
      refine ⟨alike_of_perm (fun _ _ => .permAny) (fun b a _ _ => .childAny b a)
        (fun f hf g hfg => ?_) [] hperm, hrest⟩
      exact (ih f hf ends_nil ends_nil (by rw [hfg])).1
    | compare | oneOf | rank | not | all => exact absurd hlead (by simp [lead])

/-- **Two filters have one canonical text exactly if they are alike.** -/
theorem canonical_eq_iff {f g : Filter} : f.canonical = g.canonical ↔ f.Alike g :=
  ⟨fun h => (canonical_append_inj f ends_nil ends_nil (by rw [h])).1, Alike.canonical_eq⟩

end RecordLayer.Filter
