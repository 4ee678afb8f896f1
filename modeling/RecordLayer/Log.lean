import RecordLayer.Text.Hex
import RecordLayer.Text.Order

/-!
# Log lines

A log entry has a severity, an event name and fields. It is written as one line, a JSON object with
the event first, the severity second and then the fields by key; fields of one key keep their order.
Control characters are escaped, so a line never breaks.
-/

namespace RecordLayer

/-- How serious a log entry is. -/
inductive Severity
  | trace
  | info
  | warn
  | error
deriving DecidableEq, Inhabited

namespace Severity

/-- The severities as numbers, the most serious one highest. -/
def level : Severity → Nat
  | trace => 0
  | info => 1
  | warn => 2
  | error => 3

/-- The name of a severity. -/
def name : Severity → String
  | trace => "TRACE"
  | info => "INFO"
  | warn => "WARN"
  | error => "ERROR"

/-- The severity of a name, whatever the case of its ASCII letters. -/
def ofName? (name : String) : Option Severity :=
  let upper := String.ofList (name.toList.map Char.toUpper)
  [trace, info, warn, error].find? (·.name == upper)

end Severity

/-- One entry of a log. -/
structure LogEntry where
  severity : Severity
  event : String
  fields : List (String × String) := []
deriving DecidableEq, Inhabited

namespace LogEntry

/-- Whether a character is one of the 65 controls. -/
def isControl (c : Char) : Bool := c.toNat < 0x20 || (0x7f ≤ c.toNat && c.toNat ≤ 0x9f)

/-- A character inside a JSON string. -/
def escapeChar (c : Char) : List Char :=
  if c = '"' then ['\\', '"']
  else if c = '\\' then ['\\', '\\']
  else if c = '\n' then ['\\', 'n']
  else if c = '\r' then ['\\', 'r']
  else if c = '\t' then ['\\', 't']
  else if isControl c then '\\' :: 'u' :: Text.hexFixed 4 c.toNat
  else [c]

/-- A text as a JSON string. -/
def quote (s : String) : List Char := '"' :: s.toList.flatMap escapeChar ++ ['"']

/-- A member of a JSON object. -/
def writeMember (member : String × String) : List Char :=
  quote member.1 ++ ':' :: quote member.2

/-- The fields by key; fields of one key keep their order. -/
def sortedFields (e : LogEntry) : List (String × String) :=
  e.fields.mergeSort fun a b => Text.le a.1 b.1

/-- The members of the line in order. -/
def members (e : LogEntry) : List (String × String) :=
  ("event", e.event) :: ("severity", e.severity.name) :: e.sortedFields

/-- The entry as one line. -/
def render (e : LogEntry) : String :=
  String.ofList ('\x7b' :: [','].intercalate (e.members.map writeMember) ++ ['\x7d'])

end LogEntry

/-- A log that keeps the entries from a threshold on, in order. -/
structure Log where
  threshold : Severity := .trace
  entries : List LogEntry := []
deriving Inhabited

namespace Log

/-- Adds an entry unless it is below the threshold. -/
def add (l : Log) (e : LogEntry) : Log :=
  if e.severity.level < l.threshold.level then l else { l with entries := l.entries ++ [e] }

/-- The lines of the log. -/
def lines (l : Log) : List String := l.entries.map LogEntry.render

end Log

end RecordLayer
