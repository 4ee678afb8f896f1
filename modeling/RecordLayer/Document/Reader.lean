import RecordLayer.Document.Token

/-!
# Reading documents

A document is read from its tokens, one at a time. The reader keeps the arrays and objects that are
still open, innermost first, and knows what may follow. It takes any depth of nesting, and exactly
the JSON grammar.
-/

namespace RecordLayer

/-- An array or object that is still open, with what it holds so far in reverse. -/
inductive OpenNode
  | array (items : List Document)
  /-- An object that waits for the value of a member. -/
  | object (members : List (Content × Document)) (name : Content)

/-- What a reader waits for. -/
inductive ReadState
  /-- A value. -/
  | value (stack : List OpenNode)
  /-- The first item of an array, or its end. -/
  | firstItem (stack : List OpenNode)
  /-- The first name of an object, or its end. -/
  | firstName (stack : List OpenNode)
  /-- The next name of an object. -/
  | name (members : List (Content × Document)) (stack : List OpenNode)
  /-- The colon after a name. -/
  | colon (members : List (Content × Document)) (name : Content) (stack : List OpenNode)
  /-- What follows a complete value: a comma, an end, or nothing. -/
  | complete (d : Document) (stack : List OpenNode)

namespace Document

/-- A token where a value may stand. -/
def readValue (stack : List OpenNode) : Token → Option ReadState
  | .null => some (.complete .null stack)
  | .bool b => some (.complete (.bool b) stack)
  | .number n => some (.complete (.number n) stack)
  | .text s => some (.complete (.text s) stack)
  | .openArray => some (.firstItem stack)
  | .openObject => some (.firstName stack)
  | _ => none

/-- A token after a complete value. -/
def readAfter (d : Document) : List OpenNode → Token → Option ReadState
  | .array items :: stack, .comma => some (.value (.array (d :: items) :: stack))
  | .array items :: stack, .closeArray => some (.complete (.array (d :: items).reverse) stack)
  | .object members name :: stack, .comma => some (.name ((name, d) :: members) stack)
  | .object members name :: stack, .closeObject =>
    some (.complete (.object ((name, d) :: members).reverse) stack)
  | _, _ => none

/-- One token. -/
def readToken : ReadState → Token → Option ReadState
  | .value stack, t => readValue stack t
  | .firstItem stack, .closeArray => some (.complete (.array []) stack)
  | .firstItem stack, t => readValue (.array [] :: stack) t
  | .firstName stack, .closeObject => some (.complete (.object []) stack)
  | .firstName stack, .text s => some (.colon [] s stack)
  | .firstName _, _ => none
  | .name members stack, .text s => some (.colon members s stack)
  | .name _ _, _ => none
  | .colon members name stack, .colon => some (.value (.object members name :: stack))
  | .colon _ _ _, _ => none
  | .complete d stack, t => readAfter d stack t

/-- The state after every token of a list. -/
def readTokens : ReadState → List Token → Option ReadState
  | state, [] => some state
  | state, t :: rest => (readToken state t).bind fun state => readTokens state rest

/-- The document that a text holds, with nothing but blanks around it. -/
def parse (text : String) : Option Document := do
  let tokens ← Token.scan text.toList
  match ← readTokens (.value []) tokens with
  | .complete d [] => return d
  | _ => none

end Document

end RecordLayer
