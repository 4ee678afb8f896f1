import RecordLayer.Document
import RecordLayer.Text.Hex

/-!
# Tokens

The tokens of a JSON text. Scanning is a machine that takes one character at a time: it stands
between tokens, or inside a word (a maximal run of letters, digits, signs and points), or inside a
string. Words and strings that are not well formed stop it.
-/

namespace RecordLayer

/-- A token of a JSON text. -/
inductive Token
  | null
  | bool (b : Bool)
  | number (n : Numeral)
  | text (s : Content)
  | openArray
  | closeArray
  | openObject
  | closeObject
  | comma
  | colon
deriving DecidableEq, Inhabited

/-- A part of a string: a character, or a 16-bit unit given by number. -/
inductive TextUnit
  | char (c : Char)
  | unit (n : Nat)
deriving DecidableEq, Inhabited

namespace TextUnit

/-- Whether a unit is the first half of a surrogate pair. -/
def isHigh (n : Nat) : Bool := 0xd800 ≤ n && n < 0xdc00

/-- Whether a unit is the second half of a surrogate pair. -/
def isLow (n : Nat) : Bool := 0xdc00 ≤ n && n < 0xe000

/-- The character that a surrogate pair stands for. -/
def pairChar (high low : Nat) : Char := .ofNat (0x10000 + (high - 0xd800) * 0x400 + (low - 0xdc00))

/-- The characters that units stand for, unless half of a pair stands alone. -/
def decode : List TextUnit → Option (List Char)
  | [] => some []
  | .char c :: rest => (decode rest).map (c :: ·)
  | .unit high :: .unit low :: rest =>
    if isHigh high then if isLow low then (decode rest).map (pairChar high low :: ·) else none
    else if isLow high then none
    else (decode (.unit low :: rest)).map (.ofNat high :: ·)
  | .unit n :: rest =>
    if isHigh n || isLow n then none else (decode rest).map (.ofNat n :: ·)

end TextUnit

/-- Where scanning stands. Units and characters read so far are kept in reverse. -/
inductive ScanState
  | between
  | word (chars : List Char)
  | text (units : List TextUnit)
  /-- After a backslash. -/
  | escape (units : List TextUnit)
  /-- Inside the four digits of a numbered unit, `missing` of them to come. -/
  | unit (units : List TextUnit) (value missing : Nat)
deriving DecidableEq, Inhabited

namespace Token

/-- Whether a character is blank in a JSON text. -/
def isBlank (c : Char) : Bool := c = ' ' || c = '\n' || c = '\t' || c = '\r'

/-- Whether a character can be part of a word. -/
def isWordChar (c : Char) : Bool := c.isAlphanum || c = '-' || c = '+' || c = '.'

/-- The token that a word stands for. -/
def ofWord? (word : List Char) : Option Token :=
  if word = "null".toList then some .null
  else if word = "true".toList then some (.bool true)
  else if word = "false".toList then some (.bool false)
  else (Numeral.ofWord? word).map .number

/-- The token that a single mark stands for. -/
def ofMark? : Char → Option Token
  | '[' => some .openArray
  | ']' => some .closeArray
  | '\x7b' => some .openObject
  | '\x7d' => some .closeObject
  | ',' => some .comma
  | ':' => some .colon
  | _ => none

/-- The character that a letter after a backslash stands for. -/
def ofEscape? : Char → Option Char
  | '"' => some '"'
  | '\\' => some '\\'
  | '/' => some '/'
  | 'b' => some '\x08'
  | 'f' => some '\x0c'
  | 'n' => some '\n'
  | 'r' => some '\r'
  | 't' => some '\t'
  | _ => none

/-- The value of a hexadecimal digit. -/
def hexValue? (c : Char) : Option Nat :=
  if c.isDigit then some (c.toNat - '0'.toNat)
  else if 'a' ≤ c ∧ c ≤ 'f' then some (c.toNat - 'a'.toNat + 10)
  else if 'A' ≤ c ∧ c ≤ 'F' then some (c.toNat - 'A'.toNat + 10)
  else none

/-- The content of a string from its units in reverse. -/
def contentOf (units : List TextUnit) : Content :=
  (TextUnit.decode units.reverse).map String.ofList

/-- A character between tokens. -/
def scanBetween (c : Char) : Option (ScanState × List Token) :=
  if isBlank c then some (.between, [])
  else if c = '"' then some (.text [], [])
  else if isWordChar c then some (.word [c], [])
  else (ofMark? c).map fun t => (.between, [t])

/-- One character: the state after it and the tokens it completes. -/
def scanChar : ScanState → Char → Option (ScanState × List Token)
  | .between, c => scanBetween c
  | .word chars, c =>
    if isWordChar c then some (.word (c :: chars), [])
    else do
      let token ← ofWord? chars.reverse
      let (state, tokens) ← scanBetween c
      return (state, token :: tokens)
  | .text units, c =>
    if c = '"' then some (.between, [.text (contentOf units)])
    else if c = '\\' then some (.escape units, [])
    else if c.toNat < 0x20 then none
    else some (.text (.char c :: units), [])
  | .escape units, c =>
    if c = 'u' then some (.unit units 0 4, [])
    else (ofEscape? c).map fun e => (.text (.char e :: units), [])
  | .unit units value missing, c => do
    let digit ← hexValue? c
    let value := 16 * value + digit
    if missing ≤ 1 then return (.text (.unit value :: units), [])
    else return (.unit units value (missing - 1), [])

/-- The tokens of the rest of a text. -/
def scanFrom : ScanState → List Char → Option (List Token)
  | .between, [] => some []
  | .word chars, [] => (ofWord? chars.reverse).map ([·])
  | _, [] => none
  | state, c :: rest =>
    match scanChar state c with
    | none => none
    | some (state, tokens) => (scanFrom state rest).map (tokens ++ ·)

/-- The tokens of a text. -/
def scan (text : List Char) : Option (List Token) := scanFrom .between text

end Token

end RecordLayer
