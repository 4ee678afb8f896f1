import RecordLayer.Proofs.Document.Reading

/-!
# Numerals are read back

A numeral is the one that its own word stands for if it is made of digits, does not begin with a
zero in front of others, and has at least one digit before the point. Every numeral that is written
is of this kind: those of integers and those of doubles.
-/

namespace RecordLayer.Numeral

/-- The digits of a numeral are digits, and a zero before the point stands alone. -/
structure Proper (n : Numeral) : Prop where
  whole : ∀ c ∈ n.whole, c.isDigit = true
  nonempty : n.whole ≠ []
  zeroAlone : ∀ rest, n.whole = '0' :: rest → rest = []
  fraction : ∀ c ∈ n.fraction, c.isDigit = true

/-! ## Words -/

/-- The text does not go on with a digit. -/
def EndsDigits (rest : List Char) : Prop := ∀ c ∈ rest.head?, c.isDigit = false

theorem splitDigits_append {digits rest : List Char} (hdigits : ∀ c ∈ digits, c.isDigit = true)
    (hrest : EndsDigits rest) : splitDigits (digits ++ rest) = (digits, rest) := by
  have hstop : rest.takeWhile Char.isDigit = [] ∧ rest.dropWhile Char.isDigit = rest := by
    cases rest with
    | nil => exact ⟨rfl, rfl⟩
    | cons c rest => simp [hrest c rfl]
  rw [splitDigits, List.takeWhile_append_of_pos hdigits, List.dropWhile_append_of_pos hdigits,
    hstop.1, hstop.2, List.append_nil]

theorem splitSign_write (negative : Bool) {cs : List Char} (h : cs.head? ≠ some '-') :
    splitSign ((if negative then ['-'] else []) ++ cs) = (negative, cs) := by
  cases negative with
  | true => rfl
  | false =>
    cases cs with
    | nil => rfl
    | cons c cs =>
      have hc : c ≠ '-' := fun hc => h (by rw [hc]; rfl)
      simp [splitSign, hc]

theorem splitWhole_append {n : Numeral} (h : n.Proper)
    {rest : List Char} (hrest : EndsDigits rest) :
    splitWhole (n.whole ++ rest) = some (n.whole, rest) := by
  have hzero := h.zeroAlone
  rw [splitWhole, splitDigits_append h.whole hrest]
  split
  · rename_i heq
    exact absurd (congrArg Prod.fst heq) h.nonempty
  · rename_i heq
    cases hzero _ (congrArg Prod.fst heq)
  · rfl

/-- The fraction with its point. -/
def writeFraction (fraction : List Char) : List Char :=
  if fraction.isEmpty then [] else '.' :: fraction

theorem splitFraction_append {fraction rest : List Char} (h : ∀ c ∈ fraction, c.isDigit = true)
    (hrest : EndsDigits rest) (hpoint : rest.head? ≠ some '.') :
    splitFraction (writeFraction fraction ++ rest) = some (fraction, rest) := by
  cases fraction with
  | nil =>
    cases rest with
    | nil => rfl
    | cons c rest =>
      have hc : c ≠ '.' := fun hc => hpoint (by rw [hc]; rfl)
      simp [writeFraction, splitFraction, hc]
  | cons c fraction =>
    simp only [writeFraction, List.isEmpty_cons, Bool.false_eq_true, if_false, List.cons_append,
      splitFraction]
    rw [← List.cons_append, splitDigits_append h hrest]

theorem ofDigits_toDigits (n : Nat) : digitsValue (Nat.toDigits 10 n) = n :=
  Nat.ofDigitChars_ten_toDigits

theorem isDigit_of_mem {c : Char} {n : Nat} (h : c ∈ Nat.toDigits 10 n) : c.isDigit = true :=
  Nat.isDigit_of_mem_toDigits (by decide) (by decide) h

theorem exponentDigits_toDigits (n : Nat) : exponentDigits (Nat.toDigits 10 n) = some n := by
  have hsplit : splitDigits (Nat.toDigits 10 n ++ []) = (Nat.toDigits 10 n, []) :=
    splitDigits_append (fun c hc => isDigit_of_mem hc) (by rintro c ⟨⟩)
  rw [List.append_nil] at hsplit
  rw [exponentDigits, hsplit]
  cases hdigits : Nat.toDigits 10 n with
  | nil => exact absurd hdigits Nat.toDigits_ne_nil
  | cons c digits =>
    simp only
    rw [← hdigits, ofDigits_toDigits]

/-- The exponent at the end of a word. -/
def writeExponent? : Option Int → List Char
  | none => []
  | some e => writeExponent e

theorem readExponent_write (exponent : Option Int) :
    readExponent (writeExponent? exponent) = some exponent := by
  cases exponent with
  | none => rfl
  | some e =>
    by_cases hsign : e < 0
    · have habs : -(e.natAbs : Int) = e := by omega
      simp only [writeExponent?, writeExponent, readExponent, hsign, true_or, if_true,
        exponentDigits_toDigits]
      exact congrArg (fun x => some (some x)) habs
    · have habs : (e.natAbs : Int) = e := by omega
      simp only [writeExponent?, writeExponent, readExponent, hsign, true_or, if_true, if_false,
        exponentDigits_toDigits]
      exact congrArg (fun x => some (some x)) habs

theorem write_eq (n : Numeral) : n.write =
    (if n.negative then ['-'] else []) ++ (n.whole ++ (writeFraction n.fraction ++
      writeExponent? n.exponent)) := by
  rw [write, List.append_assoc, List.append_assoc]
  cases n.exponent <;> rfl

theorem exponent_head (exponent : Option Int) :
    ∀ c ∈ (writeExponent? exponent).head?, c = 'e' := by
  cases exponent with
  | none => rintro c ⟨⟩
  | some e => rintro c ⟨⟩; rfl

theorem tail_head (fraction : List Char) (exponent : Option Int) :
    ∀ c ∈ (writeFraction fraction ++ writeExponent? exponent).head?, c = '.' ∨ c = 'e' := by
  cases fraction with
  | nil => exact fun c hc => .inr (exponent_head exponent c hc)
  | cons d fraction => rintro c ⟨⟩; exact .inl rfl

theorem Proper.word {n : Numeral} (h : n.Proper) : ofWord? n.write = some n := by
  have hsign :
      (n.whole ++ (writeFraction n.fraction ++ writeExponent? n.exponent)).head? ≠ some '-' := by
    cases hwhole : n.whole with
    | nil => exact absurd hwhole h.nonempty
    | cons c rest =>
      rintro ⟨⟩
      exact absurd (h.whole '-' (hwhole ▸ List.mem_cons_self)) (by decide)
  have htail : EndsDigits (writeFraction n.fraction ++ writeExponent? n.exponent) := fun c hc => by
    rcases tail_head n.fraction n.exponent c hc with rfl | rfl <;> rfl
  have hexponent : EndsDigits (writeExponent? n.exponent) := fun c hc => by
    cases exponent_head n.exponent c hc
    rfl
  have hpoint : (writeExponent? n.exponent).head? ≠ some '.' := fun hc =>
    absurd (exponent_head n.exponent '.' hc) (by decide)
  rw [ofWord?, write_eq, splitSign_write n.negative hsign]
  simp only [splitWhole_append h htail, splitFraction_append h.fraction hexponent hpoint,
    readExponent_write, Option.bind_eq_bind, Option.bind_some, Option.pure_def]

theorem Proper.chars {n : Numeral} (h : n.Proper) : ∀ c ∈ n.write, Token.isWordChar c = true := by
  have hdigit {c : Char} (hc : c.isDigit = true) : Token.isWordChar c = true := by
    simp [Token.isWordChar, Char.isAlphanum, hc]
  rw [write_eq]
  simp only [List.forall_mem_append]
  refine ⟨?_, fun c hc => hdigit (h.whole c hc), ?_, ?_⟩
  · cases n.negative with
    | true => exact List.forall_mem_singleton.2 (by decide)
    | false => exact fun c hc => nomatch hc
  · cases hfraction : n.fraction with
    | nil => exact fun c hc => nomatch hc
    | cons d fraction =>
      refine List.forall_mem_cons.2 ⟨by decide, fun c hc => hdigit (h.fraction c (hfraction ▸ hc))⟩
  · cases n.exponent with
    | none => exact fun c hc => nomatch hc
    | some e =>
      refine List.forall_mem_cons.2 ⟨by decide, List.forall_mem_cons.2 ⟨?_, ?_⟩⟩
      · split <;> decide
      · exact fun c hc => hdigit (isDigit_of_mem hc)

theorem Proper.legible {n : Numeral} (h : n.Proper) : n.Legible := ⟨h.chars, h.word⟩

/-! ## Integers -/

/-- A positive number does not begin with a zero. -/
theorem head_toDigits {n : Nat} (h : 0 < n) : (Nat.toDigits 10 n).head? ≠ some '0' := by
  induction n using Nat.base_induction 10 (by decide) with
  | single m hm =>
    rw [Nat.toDigits_of_lt_base hm]
    match m, h, hm with
    | 1, _, _ | 2, _, _ | 3, _, _ | 4, _, _ | 5, _, _ | 6, _, _ | 7, _, _ | 8, _, _ | 9, _, _ =>
      decide
  | digit m k hk hm ih =>
    rw [← Nat.toDigits_append_toDigits (by decide) hm hk,
      List.head?_append_of_ne_nil _ Nat.toDigits_ne_nil]
    exact ih hm

theorem zeroAlone_toDigits (n : Nat) : ∀ rest, Nat.toDigits 10 n = '0' :: rest → rest = [] := by
  intro rest heq
  rcases Nat.eq_zero_or_pos n with rfl | hn
  · exact (List.cons.inj heq).2.symm
  · exact absurd (by rw [heq]; rfl) (head_toDigits hn)

theorem proper_digits (negative : Bool) (n : Nat) :
    Proper { negative, whole := Nat.toDigits 10 n } where
  whole _ h := isDigit_of_mem h
  nonempty := Nat.toDigits_ne_nil
  zeroAlone := zeroAlone_toDigits n
  fraction _ h := nomatch h

theorem ofInt_proper (i : Int) : (ofInt i).Proper := proper_digits (i < 0) i.natAbs

theorem toInt?_ofInt (i : Int) : (ofInt i).toInt? = some i := by
  have hvalue : (if i < 0 then -(i.natAbs : Int) else i.natAbs) = i := by
    split <;> omega
  have hinteger : (ofInt i).isInteger = true := by
    simp only [isInteger, ofInt, ofDigits_toDigits, List.isEmpty_nil, Option.isNone_none,
      Bool.true_and, Bool.not_eq_true', Bool.and_eq_false_iff, decide_eq_false_iff_not,
      beq_eq_false_iff_ne]
    omega
  rw [toInt?, if_pos hinteger]
  simp only [ofInt, ofDigits_toDigits, decide_eq_true_eq, hvalue]

/-! ## Doubles -/

/-- A single zero before the point. -/
theorem proper_of_zero {n : Numeral} (hwhole : n.whole = ['0'])
    (hfraction : ∀ c ∈ n.fraction, c.isDigit = true) : n.Proper where
  whole := by rw [hwhole]; exact List.forall_mem_singleton.2 (by decide)
  nonempty := by rw [hwhole]; decide
  zeroAlone rest h := by
    rw [hwhole] at h
    exact (List.cons.inj h).2.symm
  fraction := hfraction

/-- Another digit in front. -/
theorem proper_of_head {n : Numeral} {c : Char} {cs : List Char} (hwhole : n.whole = c :: cs)
    (hc : c ≠ '0') (hdigits : ∀ c ∈ n.whole, c.isDigit = true)
    (hfraction : ∀ c ∈ n.fraction, c.isDigit = true) : n.Proper where
  whole := hdigits
  nonempty := by rw [hwhole]; exact List.cons_ne_nil c cs
  zeroAlone rest h := by
    rw [hwhole] at h
    exact absurd (List.cons.inj h).1 hc
  fraction := hfraction

theorem ofDouble_proper (d : Double) : (ofDouble d).Proper := by
  simp only [ofDouble]
  generalize hdecimal : d.shortest .even = decimal
  by_cases hzero : decimal.digits = 0
  · simp only [Decimal.digitChars, hzero, if_true, List.isEmpty_nil]
    exact proper_of_zero rfl (by simp)
  · have hdigits : ∀ c ∈ Nat.toDigits 10 decimal.digits, c.isDigit = true := fun c => isDigit_of_mem
    have hhead := head_toDigits (Nat.pos_of_ne_zero hzero)
    obtain ⟨c, cs, hcs⟩ :=
      List.exists_cons_of_ne_nil (Nat.toDigits_ne_nil (n := decimal.digits) (b := 10))
    have hc : c ≠ '0' := fun h => hhead (by rw [hcs, h]; rfl)
    rw [hcs] at hdigits
    have hzeros {k : Nat} : ∀ c ∈ List.replicate k '0', c.isDigit = true := fun c h => by
      rw [(List.mem_replicate.1 h).2]
      rfl
    have hpadded {k : Nat} : ∀ d ∈ c :: cs ++ List.replicate k '0', d.isDigit = true :=
      List.forall_mem_append.2 ⟨hdigits, hzeros⟩
    simp only [Decimal.digitChars, hzero, if_false, hcs, List.isEmpty_cons, Bool.false_eq_true]
    split_ifs with hexponent hpoint hempty
    · exact proper_of_head rfl hc (fun d h => hdigits d (List.mem_of_mem_take h))
        (fun d h => hdigits d (List.mem_of_mem_drop h))
    · exact proper_of_zero rfl (List.forall_mem_append.2 ⟨hzeros, hdigits⟩)
    all_goals
      have hpositive : (((c :: cs).length : Int) + decimal.exponent).toNat ≠ 0 := by omega
      obtain ⟨k, hk⟩ := Nat.exists_eq_succ_of_ne_zero hpositive
      refine proper_of_head (by rw [hk]; rfl) hc (fun d h => hpadded d (List.mem_of_mem_take h)) ?_
    · simp
    · exact fun d h => hpadded d (List.mem_of_mem_drop h)

end RecordLayer.Numeral
