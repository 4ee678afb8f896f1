import RecordLayer.Document.Codec
import RecordLayer.Store.View

/-!
# Consistency as a document
-/

namespace RecordLayer.Consistency

/-- The name of what a read promises. -/
def name : Consistency → String
  | serializable => "serializable"
  | snapshot => "snapshot"

/-- Consistency as a document. -/
def codec : Codec Consistency := .named name [serializable, snapshot]

end RecordLayer.Consistency
