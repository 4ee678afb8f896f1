import RecordLayer.Document.Numeral

/-!
# Documents

A JSON document as a tree. Members of an object keep their order and may repeat a name. A string
whose escapes name half a surrogate pair is well formed as a document but has no content, so it is
kept without one; whoever needs the content refuses it.
-/

namespace RecordLayer

/-- The content of a JSON string, if it has one. -/
abbrev Content := Option String

/-- A JSON document. -/
inductive Document
  | null
  | bool (b : Bool)
  | number (n : Numeral)
  | text (s : Content)
  | array (items : List Document)
  | object (members : List (Content × Document))
deriving Inhabited

namespace Document

/-- A string with its content. -/
def ofString (s : String) : Document := .text (some s)

/-- An object of named members. -/
def ofMembers (members : List (String × Document)) : Document :=
  .object (members.map fun (name, d) => (some name, d))

/-- The content of a string. -/
def content? : Document → Content
  | text s => s
  | _ => none

/-- The members of a name. -/
def named (name : String) (members : List (Content × Document)) : List Document :=
  (members.filter (·.1 == some name)).map (·.2)

/-- The last member of a name of an object. -/
def member? (name : String) : Document → Option Document
  | object members => (named name members).getLast?
  | _ => none

end Document

end RecordLayer
