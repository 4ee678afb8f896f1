import RecordLayer.Document
import RecordLayer.Text.Hex

/-!
# Writing documents

A document as text without blanks. Strings escape what JSON demands and nothing else.
-/

namespace RecordLayer.Document

/-- A character inside a string. -/
def escapeChar (c : Char) : List Char :=
  if c = '"' then ['\\', '"']
  else if c = '\\' then ['\\', '\\']
  else if c = '\x08' then ['\\', 'b']
  else if c = '\x0c' then ['\\', 'f']
  else if c = '\n' then ['\\', 'n']
  else if c = '\r' then ['\\', 'r']
  else if c = '\t' then ['\\', 't']
  else if c.toNat < 0x20 then '\\' :: 'u' :: Text.hexFixed 4 c.toNat
  else [c]

/-- A string between quotes; one without content is written as if it were empty. -/
def writeText (s : Content) : List Char :=
  '"' :: (s.getD "").toList.flatMap escapeChar ++ ['"']

mutual

/-- A document as text. -/
def write : Document → List Char
  | .null => "null".toList
  | .bool true => "true".toList
  | .bool false => "false".toList
  | .number n => n.write
  | .text s => writeText s
  | .array items => '[' :: writeItems items ++ [']']
  | .object members => '\x7b' :: writeMembers members ++ ['\x7d']

/-- Documents between commas. -/
def writeItems : List Document → List Char
  | [] => []
  | [d] => d.write
  | d :: rest => d.write ++ ',' :: writeItems rest

/-- Members between commas. -/
def writeMembers : List (Content × Document) → List Char
  | [] => []
  | [(name, d)] => writeText name ++ ':' :: d.write
  | (name, d) :: rest => writeText name ++ ':' :: d.write ++ ',' :: writeMembers rest

end

/-- A document as text. -/
def render (d : Document) : String := String.ofList d.write

end RecordLayer.Document
