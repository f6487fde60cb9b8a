import SinkReach.Ieee.Format

/-!
Sorts of the terms that constraints are written in.
-/
namespace SinkReach

inductive TermSort where
  | bool
  | bitVec (width : Nat)
  | float (format : FloatFormat)
  | array (index element : TermSort)
deriving DecidableEq, Repr, Inhabited

namespace TermSort

def width? : TermSort → Option Nat
  | bitVec w => some w
  | _ => none

def format? : TermSort → Option FloatFormat
  | float f => some f
  | _ => none

def element? : TermSort → Option TermSort
  | array _ e => some e
  | _ => none

def isArray (s : TermSort) : Bool := s.element?.isSome

/-- The sort as SMT-LIB writes it. -/
def text : TermSort → String
  | bool => "Bool"
  | bitVec w => "(_ BitVec " ++ toString w ++ ")"
  | float f => "(_ FloatingPoint " ++ toString f.exponent ++ " " ++ toString f.significand ++ ")"
  | array i e => "(Array " ++ i.text ++ " " ++ e.text ++ ")"

end TermSort
end SinkReach
