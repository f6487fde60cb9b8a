/-!
JSON documents. Integers and floating-point numbers are kept apart, the latter by the bit pattern of
the double they denote, and the members of an object stand in the order in which they were written.
Well-formed text need not have a meaning; where it has none, a document says so.
-/
namespace SinkReach

inductive Json where
  | null
  | bool (value : Bool)
  | int (value : Int)
  | float (bits : Nat)
  | str (value : String)
  | arr (items : List Json)
  | obj (members : List (String × Json))
  /-- A number beyond the greatest double, a text with half a surrogate pair, or an object with such a
  key. -/
  | unreadable
deriving Inhabited

namespace Json

/-- Member of an object; the last one of a repeated key counts. -/
def get? (j : Json) (key : String) : Option Json :=
  match j with
  | obj members => (members.reverse.find? (·.1 == key)).map (·.2)
  | _ => none

def items? : Json → Option (List Json)
  | arr items => some items
  | _ => none

def str? : Json → Option String
  | str s => some s
  | _ => none

def bool? : Json → Option Bool
  | bool b => some b
  | _ => none

def int? : Json → Option Int
  | int n => some n
  | _ => none

/-- Integer that is not negative and below `bound`. -/
def natBelow? (bound : Nat) : Json → Option Nat
  | int n => if 0 ≤ n ∧ n < bound then some n.toNat else none
  | _ => none

def ofOption (encode : α → Json) : Option α → Json
  | some a => encode a
  | none => null

def ofNat (n : Nat) : Json := int n

def ofList (encode : α → Json) (items : List α) : Json := arr (items.map encode)

end Json
end SinkReach
