import RecordLayer.Document.Writer
import RecordLayer.Log
import RecordLayer.Document.Token
import Mathlib.Data.List.Forall2

/-!
# Scanning what is written

The pieces that documents and log lines are put together from are marks, words and strings between
quotes. Each of them is scanned to its own token and leaves what comes behind it as it is: a mark
and a string always, a word where no further word character follows.

Documents and log lines escape different characters. For the scanner they are two cases of one
thing, an escaping that writes every character as one unit of a string (`Token.Escapes`).
-/

namespace RecordLayer

namespace TextUnit

/-- The unit is a way to write the character: as it is, or by its number. -/
inductive StandsFor : TextUnit → Char → Prop
  | char (c : Char) : StandsFor (.char c) c
  | unit (c : Char) : StandsFor (.unit c.toNat) c

/-- No character is half of a surrogate pair. -/
theorem not_surrogate (c : Char) : isHigh c.toNat = false ∧ isLow c.toNat = false := by
  have hvalid : c.toNat < 0xd800 ∨ 0xdfff < c.toNat ∧ c.toNat < 0x110000 := c.valid
  simp only [isHigh, isLow, Bool.and_eq_false_iff, decide_eq_false_iff_not]
  omega

theorem decode_unit (c : Char) (rest : List TextUnit) :
    decode (.unit c.toNat :: rest) = (decode rest).map (c :: ·) := by
  obtain ⟨hhigh, hlow⟩ := not_surrogate c
  cases rest with
  | nil => simp [decode, hhigh, hlow]
  | cons u rest => cases u <;> simp [decode, hhigh, hlow]

theorem decode_standsFor {units : List TextUnit} {cs : List Char}
    (h : List.Forall₂ StandsFor units cs) : decode units = some cs := by
  induction h with
  | nil => rfl
  | cons hu _ ih =>
    cases hu with
    | char c => rw [decode, ih, Option.map_some]
    | unit c => rw [decode_unit, ih, Option.map_some]

end TextUnit

namespace Token

open TextUnit

theorem scanFrom_cons (state : ScanState) (c : Char) (rest : List Char) :
    scanFrom state (c :: rest) =
      (scanChar state c).bind fun r => (scanFrom r.1 rest).map (r.2 ++ ·) := by
  rw [scanFrom.eq_def]
  cases state <;> simp only <;> split <;> simp [*]

/-- A character that changes the state and completes no token. -/
theorem scanFrom_step {state : ScanState} (state' : ScanState) {c : Char}
    (h : scanChar state c = some (state', [])) (rest : List Char) :
    scanFrom state (c :: rest) = scanFrom state' rest := by
  rw [scanFrom_cons, h]
  simp

/-- A character that completes one token. -/
theorem scanFrom_token {state state' : ScanState} {c : Char} {t : Token}
    (h : scanChar state c = some (state', [t])) (rest : List Char) :
    scanFrom state (c :: rest) = (scanFrom state' rest).map (t :: ·) := by
  rw [scanFrom_cons, h]
  rfl

/-! ## Strings -/

/-- The escaping writes each character as one unit that stands for it. -/
def Escapes (escape : Char → List Char) : Prop :=
  ∀ c units rest, ∃ u, StandsFor u c ∧
    scanFrom (.text units) (escape c ++ rest) = scanFrom (.text (u :: units)) rest

theorem scan_escaped {escape : Char → List Char} (hesc : Escapes escape) :
    ∀ (cs : List Char) (units : List TextUnit) (rest : List Char),
      ∃ us, List.Forall₂ StandsFor us cs ∧
      scanFrom (.text units) (cs.flatMap escape ++ rest) =
        scanFrom (.text (us.reverse ++ units)) rest
  | [], units, rest => ⟨[], .nil, rfl⟩
  | c :: cs, units, rest => by
    obtain ⟨u, hu, hone⟩ := hesc c units (cs.flatMap escape ++ rest)
    obtain ⟨us, hus, hall⟩ := scan_escaped hesc cs (u :: units) rest
    refine ⟨u :: us, .cons hu hus, ?_⟩
    rw [List.flatMap_cons, List.append_assoc, hone, hall]
    simp

/-- What stands between quotes is scanned to the string that was escaped. -/
theorem scan_quoted {escape : Char → List Char} (hesc : Escapes escape) (s : String)
    (rest : List Char) :
    scanFrom .between ('"' :: s.toList.flatMap escape ++ '"' :: rest) =
      (scanFrom .between rest).map (.text (some s) :: ·) := by
  obtain ⟨us, hus, hall⟩ := scan_escaped hesc s.toList [] ('"' :: rest)
  have hcontent : contentOf (us.reverse ++ []) = some s := by
    rw [contentOf, List.append_nil, List.reverse_reverse, decode_standsFor hus, Option.map_some,
      String.ofList_toList]
  have hend : scanChar (.text (us.reverse ++ [])) '"' = some (.between, [.text (some s)]) := by
    rw [scanChar, if_pos rfl, hcontent]
  rw [List.cons_append, scanFrom_step (.text []) (by decide), hall, scanFrom_token hend]

/-! ### The two escapings -/

theorem hexValue?_hexDigit : ∀ n < 16, hexValue? (Text.hexDigit n) = some n := by decide

theorem scan_hexDigit {n : Nat} (h : n < 16) (units : List TextUnit) (value missing : Nat)
    (rest : List Char) :
    scanFrom (.unit units value (missing + 2)) (Text.hexDigit n :: rest) =
      scanFrom (.unit units (16 * value + n) (missing + 1)) rest :=
  scanFrom_step _ (by simp [scanChar, hexValue?_hexDigit n h]) rest

theorem scan_lastHexDigit {n : Nat} (h : n < 16) (units : List TextUnit) (value : Nat)
    (rest : List Char) :
    scanFrom (.unit units value 1) (Text.hexDigit n :: rest) =
      scanFrom (.text (.unit (16 * value + n) :: units)) rest :=
  scanFrom_step _ (by simp [scanChar, hexValue?_hexDigit n h]) rest

/-- A unit by its number in four digits. -/
theorem scan_numbered {n : Nat} (h : n < 0x10000) (units : List TextUnit) (rest : List Char) :
    scanFrom (.text units) ('\\' :: 'u' :: Text.hexFixed 4 n ++ rest) =
      scanFrom (.text (.unit n :: units)) rest := by
  have hdigit (k : Nat) : k % 16 < 16 := Nat.mod_lt k (by decide)
  have hvalue :
      16 * (16 * (16 * (16 * 0 + n / 16 / 16 / 16 % 16) + n / 16 / 16 % 16) + n / 16 % 16) +
        n % 16 = n := by omega
  simp only [Text.hexFixed, List.nil_append, List.cons_append]
  rw [scanFrom_step (.escape units) rfl, scanFrom_step (.unit units 0 4) rfl,
    scan_hexDigit (hdigit _), scan_hexDigit (hdigit _), scan_hexDigit (hdigit _),
    scan_lastHexDigit (hdigit _), hvalue]

/-- A character after a backslash. -/
theorem scan_escape {c e : Char} (he : ofEscape? e = some c) (units : List TextUnit)
    (rest : List Char) :
    scanFrom (.text units) ('\\' :: e :: rest) = scanFrom (.text (.char c :: units)) rest := by
  have hu : e ≠ 'u' := by
    rintro rfl
    cases he
  rw [scanFrom_step (.escape units) rfl,
    scanFrom_step (.text (.char c :: units)) (by simp [scanChar, hu, he])]

/-- A character as it is. -/
theorem scan_plain {c : Char} (hquote : c ≠ '"') (hslash : c ≠ '\\') (hcontrol : ¬ c.toNat < 0x20)
    (units : List TextUnit) (rest : List Char) :
    scanFrom (.text units) (c :: rest) = scanFrom (.text (.char c :: units)) rest :=
  scanFrom_step _ (by simp [scanChar, hquote, hslash, hcontrol]) rest

theorem escapes_document : Escapes Document.escapeChar := by
  intro c units rest
  simp only [Document.escapeChar]
  split_ifs with hquote hslash hb hf hn hr ht hcontrol
  iterate 7 exact ⟨.char c, .char c, scan_escape (by subst c; decide) units rest⟩
  · exact ⟨.unit c.toNat, .unit c, scan_numbered (by omega) units rest⟩
  · exact ⟨.char c, .char c, scan_plain hquote hslash hcontrol units rest⟩

theorem escapes_line : Escapes LogEntry.escapeChar := by
  intro c units rest
  simp only [LogEntry.escapeChar]
  split_ifs with hquote hslash hn hr ht hcontrol
  iterate 5 exact ⟨.char c, .char c, scan_escape (by subst c; decide) units rest⟩
  · have hlow : c.toNat < 0x10000 := by
      simp only [LogEntry.isControl, Bool.or_eq_true, Bool.and_eq_true,
        decide_eq_true_eq] at hcontrol
      omega
    exact ⟨.unit c.toNat, .unit c, scan_numbered hlow units rest⟩
  · have hlow : ¬ c.toNat < 0x20 := fun h => hcontrol (by simp [LogEntry.isControl, h])
    exact ⟨.char c, .char c, scan_plain hquote hslash hlow units rest⟩

/-! ## Marks and words -/

theorem scan_mark {c : Char} {t : Token} (h : scanBetween c = some (.between, [t]))
    (rest : List Char) :
    scanFrom .between (c :: rest) = (scanFrom .between rest).map (t :: ·) := by
  have hmark : scanChar .between c = some (.between, [t]) := h
  exact scanFrom_token hmark rest

/-- A word that ended in front of this would not go on. -/
def EndsWord (rest : List Char) : Prop := ∀ c ∈ rest.head?, isWordChar c = false

theorem scanBetween_wordChar {c : Char} (h : isWordChar c = true) :
    scanBetween c = some (.word [c], []) := by
  have hblank : isBlank c = false := by
    rw [Bool.eq_false_iff]
    intro hb
    simp only [isBlank, Bool.or_eq_true, decide_eq_true_eq] at hb
    rcases hb with ((rfl | rfl) | rfl) | rfl <;> exact absurd h (by decide)
  have hquote : c ≠ '"' := by
    rintro rfl
    exact absurd h (by decide)
  simp [scanBetween, hblank, hquote, h]

/-- The rest of a word that has begun. -/
theorem scan_wordRest {t : Token} {rest : List Char} (hrest : EndsWord rest) :
    ∀ {w seen : List Char}, (∀ c ∈ w, isWordChar c = true) → ofWord? (seen.reverse ++ w) = some t →
      scanFrom (.word seen) (w ++ rest) = (scanFrom .between rest).map (t :: ·)
  | [], seen, _, ht => by
    rw [List.append_nil] at ht
    cases rest with
    | nil => simp [scanFrom, ht]
    | cons c rest =>
      have hc : isWordChar c = false := hrest c rfl
      rw [List.nil_append, scanFrom_cons, scanFrom_cons, scanChar, scanChar, hc, ht]
      cases scanBetween c <;> simp [Function.comp_def]
  | c :: w, seen, hw, ht => by
    have hc : isWordChar c = true := hw c List.mem_cons_self
    rw [List.cons_append, scanFrom_step (.word (c :: seen)) (by simp [scanChar, hc])]
    exact scan_wordRest hrest (fun d hd => hw d (List.mem_cons_of_mem c hd)) (by simpa using ht)

theorem scan_word {w rest : List Char} {t : Token} (hw : ∀ c ∈ w, isWordChar c = true)
    (ht : ofWord? w = some t) (hrest : EndsWord rest) :
    scanFrom .between (w ++ rest) = (scanFrom .between rest).map (t :: ·) := by
  cases w with
  | nil => cases ht
  | cons c w =>
    have hfirst : scanChar .between c = some (.word [c], []) :=
      scanBetween_wordChar (hw c List.mem_cons_self)
    rw [List.cons_append, scanFrom_step _ hfirst]
    exact scan_wordRest hrest (fun d hd => hw d (List.mem_cons_of_mem c hd)) ht

end Token

end RecordLayer
