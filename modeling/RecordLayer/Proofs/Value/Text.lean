import RecordLayer.Proofs.Text.Literal

/-!
# Values can be read back

The canonical text of a value shows where it ends and which value it stands for. A text starts with
a quote; every other value is written in plain characters, and a double is known by the `d` in front
of its sixteen digits.
-/

namespace RecordLayer

open Text

/-! ## Integers -/

theorem toList_toString_int (i : Int) :
    (toString i).toList = if i < 0 then '-' :: Nat.toDigits 10 i.natAbs
      else Nat.toDigits 10 i.natAbs := by
  cases i with
  | ofNat n =>
    rw [if_neg (by simp)]
    exact toList_toString_nat n
  | negSucc n =>
    rw [if_pos (Int.negSucc_lt_zero n)]
    show ("-" ++ toString (n + 1)).toList = _
    rw [String.toList_append, toList_toString_nat]
    rfl

/-- The characters of an integer. -/
theorem isDigit_of_mem_toString_int {c : Char} {i : Int} (h : c ∈ (toString i).toList) :
    c = '-' ∨ c.isDigit = true := by
  have hdigit : ∀ n, c ∈ Nat.toDigits 10 n → c.isDigit = true := fun n h =>
    Nat.isDigit_of_mem_toDigits (by decide) (by decide) h
  rw [toList_toString_int] at h
  split at h
  · rcases List.mem_cons.1 h with rfl | h
    · exact .inl rfl
    · exact .inr (hdigit _ h)
  · exact .inr (hdigit _ h)

theorem toString_int_inj {i j : Int} (h : toString i = toString j) : i = j := by
  have hne : ∀ n m : Nat, '-' :: Nat.toDigits 10 n ≠ Nat.toDigits 10 m := fun n m h => by
    have : '-' ∈ Nat.toDigits 10 m := by rw [← h]; simp
    have := Nat.isDigit_of_mem_toDigits (by decide) (by decide) this
    cases this
  have h := congrArg String.toList h
  rw [toList_toString_int, toList_toString_int] at h
  split at h <;> split at h
  · injection h with _ h
    have := toDigits_ten_inj h
    omega
  · exact absurd h (hne _ _)
  · exact absurd h.symm (hne _ _)
  · have := toDigits_ten_inj h
    omega

/-! ## Doubles -/

namespace Double

theorem isPlain_of_mem_digitChars {c : Char} {n : Nat} (h : c ∈ Decimal.digitChars n) :
    isPlain c = true := by
  unfold Decimal.digitChars at h
  split at h
  · cases h
  · exact isPlain_of_mem_toDigits h

theorem isPlain_of_mem_positional {c : Char} {digits : List Char} {point : Int}
    (hdigits : ∀ c ∈ digits, isPlain c = true) (h : c ∈ positional false digits point) :
    isPlain c = true := by
  have hzero : ∀ n, c ∈ List.replicate n '0' → isPlain c = true := fun n h => by
    rw [List.eq_of_mem_replicate h]
    rfl
  have hlead : ∀ d, c = d → isPlain d = true → isPlain c = true := fun d h hd => h ▸ hd
  unfold positional at h
  split at h
  · rcases List.mem_append.1 h with h | h
    · rcases List.mem_cons.1 h with h | h
      · exact hlead _ h rfl
      · rcases List.mem_cons.1 h with h | h
        · exact hlead _ h rfl
        · exact hzero _ h
    · exact hdigits c h
  · split at h
    · simp only [Bool.false_eq_true, if_false, List.append_nil] at h
      rcases List.mem_append.1 h with h | h
      · exact hdigits c h
      · exact hzero _ h
    · rcases List.mem_append.1 h with h | h
      · exact hdigits c (List.mem_of_mem_take h)
      · rcases List.mem_cons.1 h with h | h
        · exact hlead _ h rfl
        · exact hdigits c (List.mem_of_mem_drop h)

theorem isPlain_of_mem_write {c : Char} {d : Double} (h : c ∈ (d.write plain).toList) :
    isPlain c = true := by
  have hconst : ∀ cs : List Char, cs.all isPlain = true → c ∈ cs → isPlain c = true :=
    fun cs hall hc => List.all_eq_true.1 hall c hc
  have hbody : c ∈ (if d.isFinite then String.ofList (d.writeMagnitude plain) else "inf").toList →
      isPlain c = true := by
    intro h
    split at h
    · rw [String.toList_ofList] at h
      unfold writeMagnitude at h
      split at h
      · exact hconst ['0'] rfl h
      · exact isPlain_of_mem_positional (fun c => isPlain_of_mem_digitChars) h
    · exact hconst "inf".toList rfl h
  unfold write at h
  split at h
  · exact hconst "NaN".toList rfl h
  · dsimp only at h
    split at h
    · rw [String.toList_append] at h
      rcases List.mem_append.1 h with h | h
      · exact hconst "-".toList rfl h
      · exact hbody h
    · exact hbody h

end Double

/-! ## Values -/

namespace Value

theorem toList_canonical_double (d : Double) :
    (canonical (.double d)).toList =
      (d.write Double.plain).toList ++ 'd' :: hexFixed 16 d.bits.toNat := by
  simp only [canonical, String.toList_append, String.toList_ofList, List.append_assoc]
  exact congrArg _ (List.singleton_append ..)

/-- Every value but a text is written in plain characters. -/
theorem isPlain_of_mem_canonical {v : Value} (hv : v.text? = none) {c : Char}
    (h : c ∈ v.canonical.toList) : isPlain c = true := by
  cases v with
  | null => exact List.all_eq_true.1 (show "null".toList.all isPlain = true from rfl) c h
  | bool b =>
    cases b with
    | true => exact List.all_eq_true.1 (show "true".toList.all isPlain = true from rfl) c h
    | false => exact List.all_eq_true.1 (show "false".toList.all isPlain = true from rfl) c h
  | int i =>
    rcases isDigit_of_mem_toString_int h with rfl | h
    · rfl
    · exact isPlain_of_isDigit h
  | double d =>
    rw [toList_canonical_double] at h
    rcases List.mem_append.1 h with h | h
    · exact Double.isPlain_of_mem_write h
    · rcases List.mem_cons.1 h with rfl | h
      · rfl
      · exact isPlain_of_mem_hexFixed h
  | text s => cases hv

/-- The names of the null and the truth values. -/
def names : List String := ["null", "true", "false"]

theorem canonical_double_inj {d e : Double} (h : canonical (.double d) = canonical (.double e)) :
    d = e := by
  have h := congrArg String.toList h
  rw [toList_canonical_double, toList_canonical_double] at h
  have hlen :
      ('d' :: hexFixed 16 d.bits.toNat).length = ('d' :: hexFixed 16 e.bits.toNat).length := by
    simp [length_hexFixed]
  have hhex := List.append_inj_right' h hlen
  injection hhex with _ hhex
  have hnat := congrArg ofHex hhex
  have hall : 1 <<< (4 * 16) = UInt64.size := rfl
  rw [ofHex_hexFixed, ofHex_hexFixed, hall, Nat.mod_eq_of_lt d.bits.toNat_lt,
    Nat.mod_eq_of_lt e.bits.toNat_lt] at hnat
  have hbits : d.bits = e.bits := UInt64.toNat_inj.1 hnat
  cases d
  cases e
  rw [Double.mk.injEq]
  exact hbits

/-- The text of a double is not that of an integer, a truth value or the null. -/
theorem canonical_double_ne (d : Double) {v : Value} (hv : v.text? = none) (hd : v.double? = none) :
    canonical (.double d) ≠ v.canonical := by
  intro h
  have hchars := congrArg String.toList h
  rw [toList_canonical_double] at hchars
  have hlen := congrArg List.length hchars
  rw [List.length_append, List.length_cons, length_hexFixed] at hlen
  cases v with
  | null =>
    have : "null".toList.length = 4 := rfl
    simp only [canonical] at hlen
    omega
  | bool b =>
    have htrue : "true".toList.length = 4 := rfl
    have hfalse : "false".toList.length = 5 := rfl
    cases b <;> simp only [canonical, if_true, Bool.false_eq_true, if_false] at hlen <;> omega
  | int i =>
    have hmem : 'd' ∈ (canonical (.int i)).toList := by rw [← hchars]; simp
    rcases isDigit_of_mem_toString_int hmem with h | h <;> cases h
  | double d => cases hd
  | text s => cases hv

/-- The text of an integer is not a name. -/
theorem canonical_int_ne (i : Int64) {s : String} {c : Char} (hs : c ∈ s.toList)
    (hc : c ≠ '-' ∧ c.isDigit = false) : canonical (.int i) ≠ s := by
  intro h
  rw [← h] at hs
  rcases isDigit_of_mem_toString_int hs with h | h
  · exact hc.1 h
  · rw [hc.2] at h
    cases h

/-- Two values other than texts have different canonical texts. -/
theorem canonical_inj_of_plain {a b : Value} (ha : a.text? = none) (hb : b.text? = none)
    (h : a.canonical = b.canonical) : a = b := by
  -- each of the three names holds a letter, which no integer does
  have hletter : ∀ s ∈ names, ∃ c ∈ s.toList, c ≠ '-' ∧ c.isDigit = false := by
    intro s hs
    simp only [names, List.mem_cons, List.not_mem_nil, or_false] at hs
    rcases hs with rfl | rfl | rfl
    · exact ⟨'n', by decide, by decide⟩
    · exact ⟨'t', by decide, by decide⟩
    · exact ⟨'f', by decide, by decide⟩
  have hint : ∀ i s, s ∈ names → canonical (.int i) ≠ s := fun i s hs =>
    let ⟨c, hc, hne⟩ := hletter s hs
    canonical_int_ne i hc hne
  cases a with
  | double d =>
    cases b with
    | double e => rw [canonical_double_inj h]
    | text s => cases hb
    | null => exact absurd h (canonical_double_ne d rfl rfl)
    | bool b => exact absurd h (canonical_double_ne d rfl rfl)
    | int i => exact absurd h (canonical_double_ne d rfl rfl)
  | text s => cases ha
  | int i =>
    cases b with
    | int j => rw [Int64.toInt_inj.1 (toString_int_inj h)]
    | double e => exact absurd h.symm (canonical_double_ne e rfl rfl)
    | text s => cases hb
    | null => exact absurd h (hint i "null" (by decide))
    | bool b => cases b <;> exact absurd h (hint i _ (by decide))
  | null =>
    cases b with
    | null => rfl
    | double e => exact absurd h.symm (canonical_double_ne e rfl rfl)
    | text s => cases hb
    | int i => exact absurd h.symm (hint i "null" (by decide))
    | bool b => cases b <;> exact absurd h (by decide)
  | bool a =>
    cases b with
    | double e => exact absurd h.symm (canonical_double_ne e rfl rfl)
    | text s => cases hb
    | int i => cases a <;> exact absurd h.symm (hint i _ (by decide))
    | null => cases a <;> exact absurd h (by decide)
    | bool b => cases a <;> cases b <;> first | rfl | exact absurd h (by decide)

/-- The text of a value begins with a quote exactly for a text, and never with a mark. -/
theorem exists_canonical_cons (v : Value) :
    ∃ c rest, v.canonical.toList = c :: rest ∧
      if v.text?.isSome then c = '"' else isPlain c = true := by
  cases hv : v.text? with
  | none =>
    cases hc : v.canonical.toList with
    | nil =>
      cases v with
      | null => exact absurd hc (by decide)
      | bool b => cases b <;> exact absurd hc (by decide)
      | int i =>
        rw [show (canonical (.int i)).toList = (toString i.toInt).toList from rfl,
          toList_toString_int] at hc
        split at hc
        · cases hc
        · exact absurd hc Nat.toDigits_ne_nil
      | double d =>
        rw [toList_canonical_double] at hc
        simp at hc
      | text s => cases hv
    | cons c rest =>
      refine ⟨c, rest, rfl, ?_⟩
      simpa using isPlain_of_mem_canonical hv (c := c) (by rw [hc]; simp)
  | some s =>
    cases v with
    | text s =>
      obtain ⟨rest, hrest⟩ := toList_literal s
      exact ⟨'"', rest, hrest, by simp⟩
    | _ => cases hv

/-- **The canonical text of a value shows where it ends,** and no other value has it. -/
theorem canonical_append_inj {a b : Value} {s s' : List Char} (hs : Ends s) (hs' : Ends s')
    (h : a.canonical.toList ++ s = b.canonical.toList ++ s') : a = b ∧ s = s' := by
  -- a text begins with a quotation mark and no other value does
  have hquote : ∀ {v w : Value}, v.text? = none → w.text?.isSome = true →
      v.canonical.toList ++ s ≠ w.canonical.toList ++ s' ∧
      w.canonical.toList ++ s ≠ v.canonical.toList ++ s' := by
    intro v w hv hw
    obtain ⟨c, rest, hc, hplain⟩ := exists_canonical_cons v
    obtain ⟨d, rest', hd, hmark⟩ := exists_canonical_cons w
    rw [hv] at hplain
    rw [if_pos hw] at hmark
    subst hmark
    rw [hc, hd]
    refine ⟨fun heq => ?_, fun heq => ?_⟩
    · injection heq with heq
      rw [heq] at hplain
      exact absurd hplain (by decide)
    · injection heq with heq
      rw [← heq] at hplain
      exact absurd hplain (by decide)
  cases ha : a.text? with
  | none =>
    cases hb : b.text? with
    | none =>
      obtain ⟨hlist, hrest⟩ := plain_append_inj (fun c => isPlain_of_mem_canonical ha)
        (fun c => isPlain_of_mem_canonical hb) hs hs' h
      exact ⟨canonical_inj_of_plain ha hb (String.toList_inj.1 hlist), hrest⟩
    | some t => exact absurd h (hquote ha (by rw [hb]; rfl)).1
  | some t =>
    cases hb : b.text? with
    | none => exact absurd h (hquote hb (by rw [ha]; rfl)).2
    | some t' =>
      cases a with
      | text x =>
        cases b with
        | text y =>
          obtain ⟨rfl, hrest⟩ := literal_append_inj h
          exact ⟨rfl, hrest⟩
        | _ => cases hb
      | _ => cases ha

end Value

end RecordLayer
