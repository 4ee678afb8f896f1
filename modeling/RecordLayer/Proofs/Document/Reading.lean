import RecordLayer.Document.Reader
import RecordLayer.Proofs.Document.Scanning

/-!
# Reading what is written

A document is written as the text of its tokens, and read back from them as itself, with whatever
is still open around it. The scanner gives the tokens back if every string of the document has
content and every numeral is the one that its own word stands for (`Document.Legible`); reading
tokens needs nothing.

An empty array or object is closed at once, so the reader has a state of its own before the first
item and the first name. With something to come these states are the usual ones.
-/

namespace RecordLayer

/-- A numeral that a scanner gets back from its word. -/
structure Numeral.Legible (n : Numeral) : Prop where
  chars : ∀ c ∈ n.write, Token.isWordChar c = true
  word : Numeral.ofWord? n.write = some n

namespace Document

mutual

/-- The tokens of a document. -/
def tokens : Document → List Token
  | .null => [.null]
  | .bool b => [.bool b]
  | .number n => [.number n]
  | .text s => [.text s]
  | .array items => .openArray :: itemTokens items ++ [.closeArray]
  | .object members => .openObject :: memberTokens members ++ [.closeObject]

/-- The tokens of documents between commas. -/
def itemTokens : List Document → List Token
  | [] => []
  | [d] => d.tokens
  | d :: rest => d.tokens ++ .comma :: itemTokens rest

/-- The tokens of members between commas. -/
def memberTokens : List (Content × Document) → List Token
  | [] => []
  | [(name, d)] => .text name :: .colon :: d.tokens
  | (name, d) :: rest => .text name :: .colon :: d.tokens ++ .comma :: memberTokens rest

end

theorem itemTokens_cons (d e : Document) (items : List Document) :
    itemTokens (d :: e :: items) = d.tokens ++ .comma :: itemTokens (e :: items) := rfl

theorem memberTokens_cons (name : Content) (d : Document) (m : Content × Document)
    (members : List (Content × Document)) :
    memberTokens ((name, d) :: m :: members) =
      .text name :: .colon :: d.tokens ++ .comma :: memberTokens (m :: members) := rfl

theorem write_array (items : List Document) :
    (array items).write = '[' :: writeItems items ++ [']'] := rfl

theorem write_object (members : List (Content × Document)) :
    (object members).write = '\x7b' :: writeMembers members ++ ['\x7d'] := rfl

theorem writeItems_cons (d e : Document) (items : List Document) :
    writeItems (d :: e :: items) = d.write ++ ',' :: writeItems (e :: items) := rfl

theorem writeMembers_cons (name : Content) (d : Document) (m : Content × Document)
    (members : List (Content × Document)) :
    writeMembers ((name, d) :: m :: members) =
      writeText name ++ ':' :: d.write ++ ',' :: writeMembers (m :: members) := rfl

/-- A document whose strings have content and whose numerals are legible. -/
inductive Legible : Document → Prop
  | null : Legible .null
  | bool (b : Bool) : Legible (.bool b)
  | number {n : Numeral} : n.Legible → Legible (.number n)
  | text (s : String) : Legible (.text (some s))
  | array {items : List Document} : (∀ d ∈ items, Legible d) → Legible (.array items)
  | object {members : List (Content × Document)} :
      (∀ m ∈ members, ∃ name : String, m.1 = some name) →
      (∀ m ∈ members, Legible m.2) → Legible (.object members)

/-! ## Reading tokens -/

/-- Where a value is waited for, the document's tokens complete it. -/
def ReadBack (d : Document) : Prop :=
  ∀ stack rest, readTokens (.value stack) (d.tokens ++ rest) = readTokens (.complete d stack) rest

theorem readTokens_cons {state : ReadState} (state' : ReadState) {t : Token}
    (h : readToken state t = some state') (rest : List Token) :
    readTokens state (t :: rest) = readTokens state' rest := by
  rw [readTokens, h, Option.bind_some]

/-- No document starts with the end of an array. -/
theorem read_firstItem (d : Document) (stack : List OpenNode) (rest : List Token) :
    readTokens (.firstItem stack) (d.tokens ++ rest) =
      readTokens (.value (.array [] :: stack)) (d.tokens ++ rest) := by
  cases d <;> rfl

theorem read_items : ∀ {items : List Document}, items ≠ [] → (∀ d ∈ items, ReadBack d) →
    ∀ (before : List Document) (stack : List OpenNode) (rest : List Token),
      readTokens (.value (.array before :: stack)) (itemTokens items ++ .closeArray :: rest) =
        readTokens (.complete (.array (before.reverse ++ items)) stack) rest
  | [d], _, h, before, stack, rest => by
    rw [itemTokens, h d List.mem_cons_self, readTokens_cons _ rfl, List.reverse_cons]
  | d :: e :: items, _, h, before, stack, rest => by
    rw [itemTokens_cons, List.append_assoc, h d List.mem_cons_self, List.cons_append,
      readTokens_cons (.value (.array (d :: before) :: stack)) rfl,
      read_items (List.cons_ne_nil e items) (fun f hf => h f (List.mem_cons_of_mem d hf)),
      List.reverse_cons, List.append_assoc, List.singleton_append]

theorem readBack_array {items : List Document} (h : ∀ d ∈ items, ReadBack d) :
    ReadBack (.array items) := by
  intro stack rest
  rw [tokens, List.append_assoc, List.cons_append, readTokens_cons (.firstItem stack) rfl]
  cases items with
  | nil => exact readTokens_cons _ rfl rest
  | cons d items =>
    have hfirst : ∃ more, itemTokens (d :: items) = d.tokens ++ more := by
      cases items with
      | nil => exact ⟨[], (List.append_nil _).symm⟩
      | cons e items => exact ⟨_, rfl⟩
    obtain ⟨more, hmore⟩ := hfirst
    calc
      _ = readTokens (.value (.array [] :: stack))
            (itemTokens (d :: items) ++ .closeArray :: rest) := by
        rw [hmore, List.append_assoc, List.append_assoc, List.singleton_append, read_firstItem]
      _ = _ := read_items (List.cons_ne_nil d items) h [] stack rest

theorem read_members : ∀ {members : List (Content × Document)}, members ≠ [] →
    (∀ m ∈ members, ReadBack m.2) →
    ∀ (before : List (Content × Document)) (stack : List OpenNode) (rest : List Token),
      readTokens (.name before stack) (memberTokens members ++ .closeObject :: rest) =
        readTokens (.complete (.object (before.reverse ++ members)) stack) rest
  | [(name, d)], _, h, before, stack, rest => by
    rw [memberTokens, List.cons_append, List.cons_append,
      readTokens_cons (.colon before name stack) rfl,
      readTokens_cons (.value (.object before name :: stack)) rfl,
      h (name, d) List.mem_cons_self, readTokens_cons _ rfl, List.reverse_cons]
  | (name, d) :: m :: members, _, h, before, stack, rest => by
    rw [memberTokens_cons, List.cons_append, List.cons_append, List.cons_append, List.cons_append,
      readTokens_cons (.colon before name stack) rfl,
      readTokens_cons (.value (.object before name :: stack)) rfl, List.append_assoc,
      h (name, d) List.mem_cons_self, List.cons_append,
      readTokens_cons (.name ((name, d) :: before) stack) rfl,
      read_members (List.cons_ne_nil m members) (fun f hf => h f (List.mem_cons_of_mem _ hf)),
      List.reverse_cons, List.append_assoc, List.singleton_append]

theorem readBack_object {members : List (Content × Document)} (h : ∀ m ∈ members, ReadBack m.2) :
    ReadBack (.object members) := by
  intro stack rest
  rw [tokens, List.append_assoc, List.cons_append, readTokens_cons (.firstName stack) rfl]
  cases members with
  | nil => exact readTokens_cons _ rfl rest
  | cons m members =>
    have hfirst : ∃ more, memberTokens (m :: members) = .text m.1 :: more := by
      cases members <;> exact ⟨_, rfl⟩
    obtain ⟨more, hmore⟩ := hfirst
    calc
      _ = readTokens (.name [] stack) (memberTokens (m :: members) ++ .closeObject :: rest) := by
        rw [hmore]
        rfl
      _ = _ := read_members (List.cons_ne_nil m members) h [] stack rest

theorem Legible.readBack {d : Document} (h : d.Legible) : ReadBack d := by
  induction h with
  | null => exact fun _ _ => rfl
  | bool b => exact fun _ _ => rfl
  | number _ => exact fun _ _ => rfl
  | text s => exact fun _ _ => rfl
  | array _ ih => exact readBack_array ih
  | object _ _ ih => exact readBack_object ih

/-! ## Scanning texts -/

/-- The document's text is scanned to its tokens. -/
def ScansBack (d : Document) : Prop :=
  ∀ rest, Token.EndsWord rest → Token.scanFrom .between (d.write ++ rest) =
    (Token.scanFrom .between rest).map (d.tokens ++ ·)

theorem endsWord_mark {c : Char} (h : Token.isWordChar c = false) (rest : List Char) :
    Token.EndsWord (c :: rest) := by
  rintro d ⟨⟩
  exact h

theorem scan_text (s : String) (rest : List Char) :
    Token.scanFrom .between (writeText (some s) ++ rest) =
      (Token.scanFrom .between rest).map (.text (some s) :: ·) := by
  rw [writeText, List.append_assoc, List.singleton_append]
  exact Token.scan_quoted Token.escapes_document s rest

theorem scansBack_word {w : List Char} {t : Token} (hw : ∀ c ∈ w, Token.isWordChar c = true)
    (ht : Token.ofWord? w = some t) {rest : List Char} (hrest : Token.EndsWord rest) :
    Token.scanFrom .between (w ++ rest) = (Token.scanFrom .between rest).map ([t] ++ ·) :=
  Token.scan_word hw ht hrest

theorem scansBack_number {n : Numeral} (h : n.Legible) : ScansBack (.number n) := by
  intro rest hrest
  have hne {w : List Char} (hw : Numeral.ofWord? w = none) : n.write ≠ w := by
    intro heq
    rw [← heq, h.word] at hw
    cases hw
  have hword : Token.ofWord? n.write = some (.number n) := by
    rw [Token.ofWord?, if_neg (hne (by decide)), if_neg (hne (by decide)), if_neg (hne (by decide)),
      h.word, Option.map_some]
  exact scansBack_word h.chars hword hrest

theorem scan_items : ∀ {items : List Document}, (∀ d ∈ items, ScansBack d) →
    ∀ rest, Token.scanFrom .between (writeItems items ++ ']' :: rest) =
      (Token.scanFrom .between rest).map (itemTokens items ++ .closeArray :: ·)
  | [], _, rest => Token.scan_mark rfl rest
  | [d], h, rest => by
    rw [writeItems, h d List.mem_cons_self _ (endsWord_mark rfl _), Token.scan_mark rfl,
      Option.map_map]
    rfl
  | d :: e :: items, h, rest => by
    rw [writeItems_cons, List.append_assoc, List.cons_append,
      h d List.mem_cons_self _ (endsWord_mark rfl _), Token.scan_mark rfl,
      scan_items (fun f hf => h f (List.mem_cons_of_mem d hf)), Option.map_map, Option.map_map]
    simp only [Function.comp_def, itemTokens_cons, List.append_assoc, List.cons_append]

theorem scan_member {name : String} {d : Document} (h : ScansBack d) {rest : List Char}
    (hrest : Token.EndsWord rest) :
    Token.scanFrom .between (writeText (some name) ++ ':' :: (d.write ++ rest)) =
      (Token.scanFrom .between rest).map (.text (some name) :: .colon :: d.tokens ++ ·) := by
  rw [scan_text, Token.scan_mark rfl, h rest hrest, Option.map_map, Option.map_map]
  rfl

theorem scan_members : ∀ {members : List (Content × Document)},
    (∀ m ∈ members, ∃ name : String, m.1 = some name) → (∀ m ∈ members, ScansBack m.2) →
    ∀ rest, Token.scanFrom .between (writeMembers members ++ '\x7d' :: rest) =
      (Token.scanFrom .between rest).map (memberTokens members ++ .closeObject :: ·)
  | [], _, _, rest => Token.scan_mark rfl rest
  | [(name, d)], hnames, h, rest => by
    obtain ⟨name, rfl⟩ := hnames _ List.mem_cons_self
    rw [writeMembers, List.append_assoc, List.cons_append,
      scan_member (h _ List.mem_cons_self) (endsWord_mark rfl _), Token.scan_mark rfl,
      Option.map_map]
    rfl
  | (name, d) :: m :: members, hnames, h, rest => by
    obtain ⟨name, rfl⟩ := hnames _ List.mem_cons_self
    rw [writeMembers_cons, List.append_assoc, List.append_assoc, List.cons_append, List.cons_append,
      scan_member (h _ List.mem_cons_self) (endsWord_mark rfl _), Token.scan_mark rfl,
      scan_members (fun f hf => hnames f (List.mem_cons_of_mem _ hf))
        (fun f hf => h f (List.mem_cons_of_mem _ hf)), Option.map_map, Option.map_map]
    simp only [Function.comp_def, memberTokens_cons, List.append_assoc, List.cons_append]

theorem Legible.scansBack {d : Document} (h : d.Legible) : ScansBack d := by
  induction h with
  | null => exact fun rest hrest => scansBack_word (List.all_eq_true.1 (by decide)) rfl hrest
  | bool b =>
    cases b <;> exact fun rest hrest => scansBack_word (List.all_eq_true.1 (by decide)) rfl hrest
  | number hn => exact scansBack_number hn
  | text s => exact fun rest _ => scan_text s rest
  | array _ ih =>
    intro rest _
    rw [write_array, List.append_assoc, List.cons_append, List.singleton_append,
      Token.scan_mark rfl, scan_items ih, Option.map_map]
    simp only [Function.comp_def, tokens, List.append_assoc, List.cons_append, List.nil_append]
  | object hnames _ ih =>
    intro rest _
    rw [write_object, List.append_assoc, List.cons_append, List.singleton_append,
      Token.scan_mark rfl, scan_members hnames ih, Option.map_map]
    simp only [Function.comp_def, tokens, List.append_assoc, List.cons_append, List.nil_append]

/-- A text that is scanned to the tokens of a legible document holds that document. -/
theorem Legible.parse_of_scan {d : Document} (h : d.Legible) {text : String}
    (hscan : Token.scan text.toList = some d.tokens) : parse text = some d := by
  have hread : readTokens (.value []) d.tokens = some (.complete d []) := by
    have hback := h.readBack [] []
    rwa [List.append_nil] at hback
  simp [parse, hscan, hread]

/-- **A legible document is read back from its text.** -/
theorem Legible.parse_render {d : Document} (h : d.Legible) : parse d.render = some d := by
  refine h.parse_of_scan ?_
  have hback := h.scansBack [] (fun _ hc => nomatch hc)
  rw [List.append_nil] at hback
  rw [render, String.toList_ofList, Token.scan, hback]
  exact congrArg some (List.append_nil _)

end Document

end RecordLayer
