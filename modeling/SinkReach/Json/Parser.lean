import SinkReach.Json.Token

/-!
Documents from tokens, by a machine that keeps the containers part way through on a stack. What nobody
looks at only has to be well formed, so an unreadable part is kept as such; a document that is read as a
whole holds none, and its arrays and objects nest at most 127 deep.
-/
namespace SinkReach.Json

/-- A container part way through, without the value that comes next. -/
inductive Frame where
  | array (done : List Json)
  /-- The members so far, none if a key among them was unreadable, and the next one's key. -/
  | object (done : Option (List (String × Json))) (key : Option String)

namespace Frame

/-- Members of an object with one more. -/
def add (done : Option (List (String × Json))) (key : Option String) (value : Json) :
    Option (List (String × Json)) := do
  return (← key, value) :: (← done)

/-- The object of members given the latest first. -/
def close : Option (List (String × Json)) → Json
  | some members => obj members.reverse
  | none => unreadable

end Frame

/-- What the machine waits for. -/
inductive Stage where
  | value (outer : List Frame)
  /-- A first item, or the end of the array. -/
  | firstItem (outer : List Frame)
  /-- A first key, or the end of the object. -/
  | firstKey (outer : List Frame)
  | key (done : Option (List (String × Json))) (outer : List Frame)
  | colon (done : Option (List (String × Json))) (key : Option String) (outer : List Frame)
  /-- A comma or the end of the innermost container, after a value. -/
  | after (value : Json) (outer : List Frame)

namespace Stage

/-- Value that begins with a token. -/
def begin? (outer : List Frame) : Token → Option Stage
  | .atom j => some (after j outer)
  | .text (some s) => some (after (str s) outer)
  | .text none => some (after unreadable outer)
  | .openArray => some (firstItem outer)
  | .openObject => some (firstKey outer)
  | _ => none

def next? : Stage → Token → Option Stage
  | value outer, t => begin? outer t
  | firstItem outer, .closeArray => some (after (arr []) outer)
  | firstItem outer, t => begin? (.array [] :: outer) t
  | firstKey outer, .closeObject => some (after (obj []) outer)
  | firstKey outer, .text k => some (colon (some []) k outer)
  | key done outer, .text k => some (colon done k outer)
  | colon done k outer, .colon => some (value (.object done k :: outer))
  | after v (.array done :: outer), .comma => some (value (.array (v :: done) :: outer))
  | after v (.array done :: outer), .closeArray => some (after (arr (v :: done).reverse) outer)
  | after v (.object done k :: outer), .comma => some (key (Frame.add done k v) outer)
  | after v (.object done k :: outer), .closeObject =>
    some (after (Frame.close (Frame.add done k v)) outer)
  | _, _ => none

/-- The value that stands alone. -/
def finish? : Stage → Option Json
  | after v [] => some v
  | _ => none

end Stage

/-- The document that the whole text spells, in which parts may be unreadable. -/
def scan? (text : String) : Option Json := do
  (← (← tokens? text).foldlM Stage.next? (.value [])).finish?

/-- Whether a value holds nothing unreadable and nests at most `depth` deep. -/
def isReadable : Nat → Json → Bool
  | _, unreadable => false
  | 0, arr _ | 0, obj _ => false
  | depth + 1, arr items => items.all (isReadable depth)
  | depth + 1, obj members => members.all fun m => isReadable depth m.2
  | _, _ => true

/-- Greatest depth of a document. -/
def greatestDepth : Nat := 127

/-- The readable document that the whole text spells. -/
def parse? (text : String) : Option Json := (scan? text).filter (isReadable greatestDepth)

end SinkReach.Json
