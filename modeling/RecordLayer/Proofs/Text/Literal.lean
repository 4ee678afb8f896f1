import RecordLayer.Value.Text

/-!
# Texts that can be read back

Canonical texts are put together from pieces without any length in front, so a piece has to show
where it ends. A literal ends at its closing quote. A number or a name ends before the first
character that cannot stand in it. With either, equal texts that begin with a piece begin with the
same piece, and what follows is the same as well.
-/

namespace RecordLayer.Text

/-! ## Pieces without marks -/

/-- The characters of numbers and names. -/
def isPlain (c : Char) : Bool := c.isAlphanum || c = '-' || c = '.'

/-- What follows a piece: nothing, or something that begins with a mark. -/
def Ends (rest : List Char) : Prop := ∀ c ∈ rest.head?, isPlain c = false ∧ c ≠ '"' ∧ c ≠ '='

theorem ends_nil : Ends [] := by simp [Ends]

theorem ends_cons {c : Char} (h : isPlain c = false ∧ c ≠ '"' ∧ c ≠ '=') (rest : List Char) :
    Ends (c :: rest) := by
  simpa [Ends] using h

/-- Two plain pieces that begin one text are the same. -/
theorem plain_append_inj {as bs s s' : List Char} (ha : ∀ c ∈ as, isPlain c = true)
    (hb : ∀ c ∈ bs, isPlain c = true) (hs : Ends s) (hs' : Ends s') (h : as ++ s = bs ++ s') :
    as = bs ∧ s = s' := by
  induction as generalizing bs with
  | nil =>
    cases bs with
    | nil => exact ⟨rfl, h⟩
    | cons b bs =>
      rw [List.nil_append] at h
      have := (hs b (by rw [h]; rfl)).1
      rw [hb b (by simp)] at this
      cases this
  | cons a as ih =>
    cases bs with
    | nil =>
      rw [List.nil_append] at h
      have := (hs' a (by rw [← h]; rfl)).1
      rw [ha a (by simp)] at this
      cases this
    | cons b bs =>
      injection h with hab h
      obtain ⟨rfl, rfl⟩ := ih (fun c hc => ha c (List.mem_cons_of_mem _ hc))
        (fun c hc => hb c (List.mem_cons_of_mem _ hc)) h
      exact ⟨by rw [hab], rfl⟩

theorem isPlain_of_isDigit {c : Char} (h : c.isDigit = true) : isPlain c = true := by
  simp [isPlain, Char.isAlphanum, h]

theorem isPlain_of_mem_toDigits {c : Char} {n : Nat} (h : c ∈ Nat.toDigits 10 n) :
    isPlain c = true :=
  isPlain_of_isDigit (Nat.isDigit_of_mem_toDigits (by decide) (by decide) h)

theorem toList_toString_nat (n : Nat) : (toString n).toList = Nat.toDigits 10 n := by
  rw [Nat.toString_eq_ofList_toDigits, String.toList_ofList]

theorem toDigits_ten_inj {m n : Nat} (h : Nat.toDigits 10 m = Nat.toDigits 10 n) : m = n := by
  rw [← Nat.ofDigitChars_ten_toDigits (n := m), h, Nat.ofDigitChars_ten_toDigits]

/-! ## Hexadecimal digits -/

/-- The number that a digit stands for. -/
def hexValue (c : Char) : Nat := if c.isDigit then c.toNat - '0'.toNat else c.toNat - 'a'.toNat + 10

theorem digitChar_hex : ∀ d : Fin 16, isPlain (Nat.digitChar d) = true ∧
    hexValue (Nat.digitChar d) = d ∧ isPlain (hexDigit d) = true ∧ hexValue (hexDigit d) = d := by
  decide

theorem hex_eq (n : Nat) :
    hex n = if n < 16 then [n.digitChar] else hex (n / 16) ++ [(n % 16).digitChar] :=
  Nat.toDigits_eq_if (by decide)

theorem isPlain_of_mem_hex {c : Char} (n : Nat) (h : c ∈ hex n) : isPlain c = true := by
  induction n using Nat.strongRecOn with
  | _ n ih =>
    rw [hex_eq] at h
    split at h
    · rename_i hn
      rw [List.mem_singleton.1 h]
      exact (digitChar_hex ⟨n, hn⟩).1
    · rcases List.mem_append.1 h with h | h
      · exact ih _ (by omega) h
      · rw [List.mem_singleton.1 h]
        exact (digitChar_hex ⟨n % 16, by omega⟩).1

/-- The number that some digits stand for. -/
def ofHex (digits : List Char) : Nat := digits.foldl (fun n c => n * 16 + hexValue c) 0

theorem ofHex_hex (n : Nat) : ofHex (hex n) = n := by
  induction n using Nat.strongRecOn with
  | _ n ih =>
    rw [hex_eq]
    split
    · rename_i hn
      simpa [ofHex] using (digitChar_hex ⟨n, hn⟩).2.1
    · have hdigit := (digitChar_hex ⟨n % 16, by omega⟩).2.1
      have hrest := ih (n / 16) (by omega)
      rw [ofHex] at hrest ⊢
      rw [List.foldl_append, hrest, List.foldl_cons, List.foldl_nil, hdigit]
      show n / 16 * 16 + n % 16 = n
      omega

theorem isPlain_of_mem_hexFixed {c : Char} {width n : Nat} (h : c ∈ hexFixed width n) :
    isPlain c = true := by
  induction width generalizing n with
  | zero => cases h
  | succ width ih =>
    rcases List.mem_append.1 h with h | h
    · exact ih h
    · rw [List.mem_singleton.1 h]
      exact (digitChar_hex ⟨n % 16, by omega⟩).2.2.1

theorem length_hexFixed (width n : Nat) : (hexFixed width n).length = width := by
  induction width generalizing n with
  | zero => rfl
  | succ width ih => simp [hexFixed, ih]

/-- Each digit stands for four bits. -/
theorem ofHex_hexFixed (width n : Nat) : ofHex (hexFixed width n) = n % (1 <<< (4 * width)) := by
  induction width generalizing n with
  | zero => simp [hexFixed, ofHex, Nat.mod_one]
  | succ width ih =>
    have hdigit := (digitChar_hex ⟨n % 16, by omega⟩).2.2.2
    have hrest := ih (n / 16)
    rw [ofHex] at hrest ⊢
    rw [hexFixed, List.foldl_append, hrest, List.foldl_cons, List.foldl_nil, hdigit]
    have hshift : 1 <<< (4 * (width + 1)) = 16 * (1 <<< (4 * width)) := by
      rw [Nat.mul_succ, Nat.shiftLeft_add, Nat.shiftLeft_eq _ 4, Nat.mul_comm]
    show n / 16 % (1 <<< (4 * width)) * 16 + n % 16 = n % (1 <<< (4 * (width + 1)))
    rw [hshift, Nat.mod_mul]
    omega

/-! ## Literals -/

/-- The character that stands behind the letter of a short escape. -/
def unescape (c : Char) : Char :=
  if c = '0' then '\x00' else if c = 't' then '\t' else if c = 'r' then '\r'
  else if c = 'n' then '\n' else c

/-- A character is written as it is, by a short escape, or by its code point. -/
theorem literalChar_cases (c : Char) :
    (literalChar c = [c] ∧ c ≠ '\\' ∧ c ≠ '"') ∨
    (∃ e, literalChar c = ['\\', e] ∧ e ≠ 'u' ∧ unescape e = c) ∨
    literalChar c = '\\' :: 'u' :: '\x7b' :: hex c.toNat ++ ['\x7d'] := by
  unfold literalChar
  split
  · -- six characters have an escape of one letter
    rename_i h
    exact .inr (.inl ⟨'0', rfl, by decide, h ▸ rfl⟩)
  split
  · rename_i h
    exact .inr (.inl ⟨'t', rfl, by decide, h ▸ rfl⟩)
  split
  · rename_i h
    exact .inr (.inl ⟨'r', rfl, by decide, h ▸ rfl⟩)
  split
  · rename_i h
    exact .inr (.inl ⟨'n', rfl, by decide, h ▸ rfl⟩)
  split
  · rename_i h
    exact .inr (.inl ⟨'"', rfl, by decide, by rw [h]; rfl⟩)
  split
  · rename_i h
    exact .inr (.inl ⟨'\\', rfl, by decide, by rw [h]; rfl⟩)
  rename_i hquote hslash
  split
  · exact .inr (.inr rfl)
  · exact .inl ⟨rfl, hslash, hquote⟩

/-- The written form of one character shows where it ends. -/
theorem literalChar_append_inj {a b : Char} {s s' : List Char}
    (h : literalChar a ++ s = literalChar b ++ s') : a = b ∧ s = s' := by
  rcases literalChar_cases a with ⟨ha, hane, -⟩ | ⟨e, ha, he, hea⟩ | ha <;>
    rcases literalChar_cases b with ⟨hb, hbne, -⟩ | ⟨f, hb, hf, hfb⟩ | hb <;> rw [ha, hb] at h <;>
    simp only [List.cons_append, List.nil_append, List.append_assoc, List.cons.injEq,
      true_and] at h
  · exact h
  · exact absurd h.1 hane
  · exact absurd h.1 hane
  · exact absurd h.1.symm hbne
  · exact ⟨by rw [← hea, ← hfb, h.1], h.2⟩
  · exact absurd h.1 he
  · exact absurd h.1.symm hbne
  · exact absurd h.1.symm hf
  · have hbrace : ∀ rest, Ends ('\x7d' :: rest) := ends_cons (by decide)
    obtain ⟨hhex, hrest⟩ := plain_append_inj (fun _ => isPlain_of_mem_hex _)
      (fun _ => isPlain_of_mem_hex _) (hbrace _) (hbrace _) h
    have hnat := congrArg ofHex hhex
    rw [ofHex_hex, ofHex_hex] at hnat
    exact ⟨Char.toNat_inj.1 hnat, by injection hrest⟩

theorem literalChar_ne_quote {a : Char} {s s' : List Char} : literalChar a ++ s ≠ '"' :: s' := by
  intro h
  rcases literalChar_cases a with ⟨ha, -, hne⟩ | ⟨e, ha, -⟩ | ha <;> rw [ha] at h <;>
    injection h with h
  · exact hne h
  · cases h
  · cases h

/-- Quoted characters show where they end. -/
theorem flatMap_literalChar_append_inj {as bs s s' : List Char}
    (h : as.flatMap literalChar ++ '"' :: s = bs.flatMap literalChar ++ '"' :: s') :
    as = bs ∧ s = s' := by
  induction as generalizing bs with
  | nil =>
    cases bs with
    | nil => simpa using h
    | cons b bs =>
      rw [List.flatMap_cons, List.append_assoc] at h
      exact absurd h.symm literalChar_ne_quote
  | cons a as ih =>
    cases bs with
    | nil =>
      rw [List.flatMap_cons, List.append_assoc] at h
      exact absurd h literalChar_ne_quote
    | cons b bs =>
      rw [List.flatMap_cons, List.flatMap_cons, List.append_assoc, List.append_assoc] at h
      obtain ⟨rfl, hrest⟩ := literalChar_append_inj h
      obtain ⟨rfl, rfl⟩ := ih hrest
      exact ⟨rfl, rfl⟩

/-- **A literal shows where it ends.** -/
theorem literal_append_inj {a b : String} {s s' : List Char}
    (h : (literal a).toList ++ s = (literal b).toList ++ s') : a = b ∧ s = s' := by
  rw [literal, literal, String.toList_ofList, String.toList_ofList] at h
  simp only [List.cons_append, List.append_assoc, List.cons.injEq, true_and, List.nil_append] at h
  obtain ⟨hlist, hrest⟩ := flatMap_literalChar_append_inj h
  exact ⟨String.toList_inj.1 hlist, hrest⟩

theorem toList_literal (s : String) : ∃ rest, (literal s).toList = '"' :: rest :=
  ⟨s.toList.flatMap literalChar ++ ['"'], by rw [literal, String.toList_ofList]; rfl⟩

/-! ## Lists of pieces -/

section Pieces

variable {separator : String} {gap : List Char} {close : Char} {s s' : List Char}

/-- What follows the first piece of a list: the closing mark, or a separator and
the other pieces. -/
def behind (separator : String) (close : Char) (s : List Char) : List String → List Char
  | [] => close :: s
  | b :: rest => separator.toList ++ ((separator.intercalate (b :: rest)).toList ++ close :: s)

theorem intercalate_cons_chars (a : String) (rest : List String) :
    (separator.intercalate (a :: rest)).toList ++ close :: s =
      a.toList ++ behind separator close s rest := by
  cases rest with
  | nil => rw [String.intercalate_singleton, behind]
  | cons b rest =>
    rw [String.intercalate_cons_cons, String.toList_append, String.toList_append, behind]
    simp only [List.append_assoc]

theorem ends_behind (hseparator : separator.toList = ',' :: gap)
    (hclose : isPlain close = false ∧ close ≠ '"' ∧ close ≠ '=') (rest : List String) :
    Ends (behind separator close s rest) := by
  cases rest with
  | nil => exact ends_cons hclose _
  | cons b rest =>
    rw [behind, hseparator]
    exact ends_cons (by decide) _

/-- A list that is not empty does not begin with the closing mark. -/
theorem intercalate_cons_ne {a : String} (ha : ∃ c tail, a.toList = c :: tail ∧ c ≠ close)
    (rest : List String) :
    (separator.intercalate (a :: rest)).toList ++ close :: s ≠ close :: s' := by
  obtain ⟨c, tail, hc, hne⟩ := ha
  intro h
  rw [intercalate_cons_chars, hc] at h
  injection h with h
  exact hne h

/-- **A list of pieces shows where it ends,** if each piece does and a comma
begins the separator. -/
theorem intercalate_append_inj {as bs : List String} (hseparator : separator.toList = ',' :: gap)
    (hclose : isPlain close = false ∧ close ≠ '"' ∧ close ≠ '=') (hcomma : close ≠ ',')
    (hstart : ∀ a ∈ as ++ bs, ∃ c rest, a.toList = c :: rest ∧ c ≠ close)
    (hpieces : ∀ a ∈ as, ∀ b ∈ bs, ∀ {s s' : List Char}, Ends s → Ends s' →
      a.toList ++ s = b.toList ++ s' → a = b ∧ s = s')
    (h : (separator.intercalate as).toList ++ close :: s =
      (separator.intercalate bs).toList ++ close :: s') :
    as = bs ∧ s = s' := by
  induction as generalizing bs with
  | nil =>
    cases bs with
    | nil => simpa using h
    | cons b bs => exact absurd h.symm (intercalate_cons_ne (hstart b (by simp)) bs)
  | cons a as ih =>
    cases bs with
    | nil => exact absurd h (intercalate_cons_ne (hstart a (by simp)) as)
    | cons b bs =>
      rw [intercalate_cons_chars, intercalate_cons_chars] at h
      obtain ⟨rfl, hbehind⟩ := hpieces a (by simp) b (by simp) (ends_behind hseparator hclose as)
        (ends_behind hseparator hclose bs) h
      -- either both lists are at their ends, or a separator is compared with the closing mark
      cases as with
      | nil =>
        cases bs with
        | nil => exact ⟨rfl, by injection hbehind⟩
        | cons b' bs =>
          rw [behind, behind, hseparator] at hbehind
          injection hbehind with hmark
          exact absurd hmark hcomma
      | cons a' as =>
        cases bs with
        | nil =>
          rw [behind, behind, hseparator] at hbehind
          injection hbehind with hmark
          exact absurd hmark.symm hcomma
        | cons b' bs =>
          have hsub : ∀ x ∈ (a' :: as) ++ (b' :: bs), x ∈ (a :: a' :: as) ++ (a :: b' :: bs) := by
            intro x hx
            rcases List.mem_append.1 hx with hx | hx
            · exact List.mem_append_left _ (List.mem_cons_of_mem _ hx)
            · exact List.mem_append_right _ (List.mem_cons_of_mem _ hx)
          obtain ⟨htail, hrest⟩ := ih (fun x hx => hstart x (hsub x hx))
            (fun x hx y hy => hpieces x (List.mem_cons_of_mem _ hx) y (List.mem_cons_of_mem _ hy))
            (List.append_cancel_left hbehind)
          exact ⟨by rw [htail], hrest⟩

/-- A written list shows where it ends and what was written. -/
theorem intercalate_map_append_inj {β : Type} {write : β → String} {xs ys : List β}
    (hseparator : separator.toList = ',' :: gap)
    (hclose : isPlain close = false ∧ close ≠ '"' ∧ close ≠ '=') (hcomma : close ≠ ',')
    (hstart : ∀ x, ∃ c rest, (write x).toList = c :: rest ∧ c ≠ close)
    (hwrite : ∀ {x y : β} {s s' : List Char}, Ends s → Ends s' →
      (write x).toList ++ s = (write y).toList ++ s' → x = y ∧ s = s')
    (h : (separator.intercalate (xs.map write)).toList ++ close :: s =
      (separator.intercalate (ys.map write)).toList ++ close :: s') :
    xs = ys ∧ s = s' := by
  have hstarts :
      ∀ a ∈ xs.map write ++ ys.map write, ∃ c rest, a.toList = c :: rest ∧ c ≠ close := by
    intro a ha
    rw [← List.map_append] at ha
    obtain ⟨x, -, rfl⟩ := List.mem_map.1 ha
    exact hstart x
  -- the pieces can be told apart, and so the texts; each text has been written for one piece
  have hpieces : ∀ a ∈ xs.map write, ∀ b ∈ ys.map write, ∀ {s s' : List Char}, Ends s → Ends s' →
      a.toList ++ s = b.toList ++ s' → a = b ∧ s = s' := by
    intro a ha b hb s s' hs hs' hab
    obtain ⟨x, -, rfl⟩ := List.mem_map.1 ha
    obtain ⟨y, -, rfl⟩ := List.mem_map.1 hb
    obtain ⟨rfl, hrest⟩ := hwrite hs hs' hab
    exact ⟨rfl, hrest⟩
  obtain ⟨htexts, hrest⟩ := intercalate_append_inj hseparator hclose hcomma hstarts hpieces h
  have hinj : ∀ x y, write x = write y → x = y := fun x y hxy =>
    (hwrite ends_nil ends_nil (by rw [hxy])).1
  exact ⟨(List.map_inj_right hinj).1 htexts, hrest⟩

end Pieces

end RecordLayer.Text
