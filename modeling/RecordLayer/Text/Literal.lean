import RecordLayer.Text.Hex
import RecordLayer.Text.Printable

/-!
# Quoted literals

A string as a literal in double quotes. Quotes, backslashes and common controls have short escapes;
whatever cannot be seen on its own is written by its code point. A single quote stays as it is.
-/

namespace RecordLayer.Text

/-- The written form of one character between double quotes. -/
def literalChar (c : Char) : List Char :=
  if c = '\x00' then ['\\', '0']
  else if c = '\t' then ['\\', 't']
  else if c = '\r' then ['\\', 'r']
  else if c = '\n' then ['\\', 'n']
  else if c = '"' then ['\\', '"']
  else if c = '\\' then ['\\', '\\']
  else if attaches c || !isPrintable c then
    ['\\', 'u', '\x7b'] ++ hex c.toNat ++ ['\x7d']
  else [c]

/-- A string as a quoted literal. -/
def literal (s : String) : String :=
  String.ofList ('"' :: s.toList.flatMap literalChar ++ ['"'])

/-- A list of strings as literals between square brackets. -/
def literalList (ss : List String) : String :=
  "[" ++ ", ".intercalate (ss.map literal) ++ "]"

end RecordLayer.Text
