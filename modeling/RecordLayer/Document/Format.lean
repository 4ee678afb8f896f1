import RecordLayer.Document.Reader
import RecordLayer.Document.Writer

/-!
# Formats

A format writes documents as texts and reads them back. It decides which numeral stands for a
number, as which number a numeral is read, and how many arrays and objects may be nested in each
other. What is written and read by codecs is so in any format; `Format.standard` is one that follows
the grammar to the letter.
-/

namespace RecordLayer.Document

/-- How documents are written as texts and read back. -/
structure Format where
  /-- A document as text. -/
  write : Document → String
  /-- The document that a text holds. -/
  read : String → Option Document
  /-- The numeral of an integer. -/
  ofInt : Int → Numeral
  /-- The integer that a numeral is read as. -/
  int? : Numeral → Option Int
  /-- The numeral of a double; one that has none is written as the null. -/
  ofDouble? : Double → Option Numeral
  /-- The double that a numeral is read as. -/
  double? : Numeral → Option Double
  /-- How many arrays and objects may be nested in each other. -/
  nesting : Nat

/-- The format with the shortest decimals and no blanks. -/
def Format.standard : Format where
  write := render
  read := parse
  ofInt := .ofInt
  int? := Numeral.toInt?
  ofDouble? d := if d.isFinite then some (.ofDouble d) else none
  double? := Numeral.toDouble?
  nesting := 127

end RecordLayer.Document
