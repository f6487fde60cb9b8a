import SinkReach.Table
import SinkReach.Term.Sort
import SinkReach.Term.Bits
import SinkReach.Ieee.Decimal

/-!
Concrete values of terms. An array is a constant array with point updates, the outermost of which
wins; two values are the *same* in the sense of SMT-LIB equality, where all NaNs are one value and the
two zeros are different ones.
-/
namespace SinkReach

mutual

inductive Value where
  | bool (value : Bool)
  | bitVec (bits width : Nat)
  | float (precision : Precision) (bits : Nat)
  | array (value : ArrayValue)

inductive ArrayValue where
  | const (default : Value)
  | store (base : ArrayValue) (index element : Value)

end

instance : Inhabited Value := ⟨.bool false⟩

namespace ArrayValue

def default : ArrayValue → Value
  | const d => d
  | store a _ _ => a.default

/-- Point updates, the oldest first. -/
def entries : ArrayValue → List (Value × Value)
  | const _ => []
  | store a k v => a.entries ++ [(k, v)]

def size : ArrayValue → Nat
  | const _ => 0
  | store a _ _ => a.size + 1

/-- Element of the latest update whose index passes the test, or else the default. -/
def find (test : Value → Bool) : ArrayValue → Value
  | const d => d
  | store a k v => if test k then v else a.find test

/-- Drops the updates whose index passes the test. -/
def remove (test : Value → Bool) : ArrayValue → ArrayValue
  | const d => const d
  | store a k v => if test k then a.remove test else store (a.remove test) k v

end ArrayValue

/-- Sameness of values that are not arrays. -/
def Value.sameScalar : Value → Value → Bool
  | .bool a, .bool b => a == b
  | .bitVec a w, .bitVec b v => a == b && w == v
  | .float p a, .float q b => p == q && ((p.isNaN a && p.isNaN b) || a == b)
  | _, _ => false

mutual

/-- Sameness of values: two arrays need the same default, equally many updates, and every update of
the first found in the second. -/
def Value.same : Value → Value → Bool
  | .array a, .array b => a.sameDefault b.default && a.size == b.size && a.within b
  | a, b => a.sameScalar b

/-- Sameness with its arguments exchanged: `a.sameAs b` is `b.same a`. -/
def Value.sameAs : Value → Value → Bool
  | .array a, .array b =>
    a.defaultSameAs b.default && b.size == a.size && b.entries.all fun (k, v) => a.holds k v
  | a, b => b.sameScalar a

def ArrayValue.sameDefault : ArrayValue → Value → Bool
  | .const d, v => d.same v
  | .store a _ _, v => a.sameDefault v

def ArrayValue.defaultSameAs : ArrayValue → Value → Bool
  | .const d, v => d.sameAs v
  | .store a _ _, v => a.defaultSameAs v

/-- Every update of the first array reads the same in the second. -/
def ArrayValue.within : ArrayValue → ArrayValue → Bool
  | .const _, _ => true
  | .store a k v, b => a.within b && v.sameAs (b.find k.sameAs)

/-- The element at an index is the same as a value. -/
def ArrayValue.holds : ArrayValue → Value → Value → Bool
  | .const d, _, v => d.same v
  | .store a key element, k, v => if key.same k then element.same v else a.holds k v

end

namespace ArrayValue

def get (a : ArrayValue) (index : Value) : Value := a.find fun key => key.same index

/-- Updates one index; older updates of the same index are dropped. -/
def set (a : ArrayValue) (index element : Value) : ArrayValue :=
  store (a.remove fun key => key.same index) index element

end ArrayValue

namespace Value

def ofInt (n : Int) (width : Nat) : Value := bitVec (Bits.ofInt n width) width

/-- The double that a float value denotes. -/
def toDouble? : Value → Option Nat
  | float .single bits => some (Precision.single.convert .double bits)
  | float .double bits => some bits
  | _ => none

mutual

def text : Value → String
  | bool b => if b then "true" else "false"
  | bitVec bits width => toString (Bits.toInt bits width)
  | float .single bits => Precision.single.text bits ++ "f"
  | float .double bits => Precision.double.text bits
  | array a => "[" ++ arrayText a ++ "]"

def arrayText : ArrayValue → String
  | .const d => "default " ++ d.text
  | .store a k v => arrayText a ++ ", " ++ k.text ++ " -> " ++ v.text

end

end Value

/-- Values of free constants by name. -/
abbrev Assignment := Table String Value

end SinkReach
