import SinkReach.Term.Value

/-!
Terms over booleans, bit vectors, floating-point numbers and arrays. Terms share subterms: every node
carries a label, nodes made apart have different labels, and traversals visit a label once. Equality
of terms looks at their structure only and ignores labels.
-/
namespace SinkReach

/-- Identity of a node. -/
abbrev Label := Nat

/-- Floating-point arithmetic, to nearest with ties to even; `rem` is the IEEE remainder. -/
inductive FloatOp where
  | add
  | sub
  | mul
  | div
  | rem
deriving DecidableEq, Repr

/-- IEEE comparisons, false on NaN. -/
inductive FloatCompareOp where
  | lt
  | le
  | gt
  | ge
  | eq
deriving DecidableEq, Repr

namespace Term

inductive Atom where
  | bool (value : Bool)
  | bitVec (bits width : Nat)
  | float (bits : Nat) (format : FloatFormat)
  | var (name : String) (sort : TermSort)
deriving DecidableEq, Repr

inductive UnaryOp where
  | not
  | bits (op : Bits.UnaryOp)
  | signExtend (extra : Nat)
  | zeroExtend (extra : Nat)
  | extract (high low : Nat)
  | fpNeg
  | fpIsNaN
  | fpToFp (format : FloatFormat)
  | bvToFp (format : FloatFormat)
  | fpToSbv (width : Nat)
deriving DecidableEq, Repr

inductive BinaryOp where
  | xor
  | eq
  | bits (op : Bits.BinaryOp)
  | compare (op : Bits.CompareOp)
  | fp (op : FloatOp)
  | fpCompare (op : FloatCompareOp)
  | select
deriving DecidableEq, Repr

inductive TernaryOp where
  | ite
  | store
deriving DecidableEq, Repr

/-- Conjunction or disjunction of any number of terms. -/
inductive Junction where
  | and
  | or
deriving DecidableEq, Repr

end Term

inductive Term where
  | leaf (label : Label) (atom : Term.Atom)
  | unary (label : Label) (op : Term.UnaryOp) (a : Term)
  | binary (label : Label) (op : Term.BinaryOp) (a b : Term)
  | ternary (label : Label) (op : Term.TernaryOp) (a b c : Term)
  | junction (label : Label) (op : Term.Junction) (items : List Term)

instance : Inhabited Term := ⟨.leaf 0 (.bool true)⟩

namespace Term

def label : Term → Label
  | leaf l _ | unary l _ _ | binary l _ _ _ | ternary l _ _ _ _ | junction l _ _ => l

/-- Direct operands. -/
def children : Term → List Term
  | leaf _ _ => []
  | unary _ _ a => [a]
  | binary _ _ a b => [a, b]
  | ternary _ _ a b c => [a, b, c]
  | junction _ _ items => items

def Atom.sort : Atom → TermSort
  | bool _ => .bool
  | bitVec _ w => .bitVec w
  | float _ f => .float f
  | var _ s => s

def sort : Term → TermSort
  | leaf _ atom => atom.sort
  | unary _ op a =>
    match op with
    | .not | .fpIsNaN => .bool
    | .bits _ | .fpNeg => a.sort
    | .signExtend extra | .zeroExtend extra => .bitVec (a.sort.width?.getD 0 + extra)
    | .extract high low => .bitVec (high - low + 1)
    | .fpToFp f | .bvToFp f => .float f
    | .fpToSbv w => .bitVec w
  | binary _ op a _ =>
    match op with
    | .xor | .eq | .compare _ | .fpCompare _ => .bool
    | .bits _ | .fp _ => a.sort
    | .select => a.sort.element?.getD .bool
  | ternary _ op a b _ =>
    match op with
    | .ite => b.sort
    | .store => a.sort
  | junction _ _ _ => .bool

mutual

/-- Equality of structure, whatever the labels. -/
def alike : Term → Term → Bool
  | leaf _ x, leaf _ y => x == y
  | unary _ op a, unary _ op' a' => op == op' && a.alike a'
  | binary _ op a b, binary _ op' a' b' => op == op' && a.alike a' && b.alike b'
  | ternary _ op a b c, ternary _ op' a' b' c' =>
    op == op' && a.alike a' && b.alike b' && c.alike c'
  | junction _ op items, junction _ op' items' => op == op' && alikeAll items items'
  | _, _ => false

def alikeAll : List Term → List Term → Bool
  | [], [] => true
  | a :: as, b :: bs => a.alike b && alikeAll as bs
  | _, _ => false

end

mutual

theorem alike_refl : (t : Term) → t.alike t = true
  | leaf _ _ => by simp [alike]
  | unary _ _ a => by simp [alike, alike_refl a]
  | binary _ _ a b => by simp [alike, alike_refl a, alike_refl b]
  | ternary _ _ a b c => by simp [alike, alike_refl a, alike_refl b, alike_refl c]
  | junction _ _ items => by simp [alike, alikeAll_refl items]

theorem alikeAll_refl : (ts : List Term) → alikeAll ts ts = true
  | [] => by simp [alikeAll]
  | t :: ts => by simp [alikeAll, alike_refl t, alikeAll_refl ts]

end

/-- Whether two terms are alike, from a comparison that one and the same object is spared. -/
@[inline]
def unlessIdentical (s t : Term) (compared : Unit → { r : Bool // r = s.alike t }) : Bool :=
  withPtrEq s t (fun _ => (compared ()).1) fun h => by
    rw [(compared ()).2, h]
    exact alike_refl t

theorem unlessIdentical_eq_alike (s t : Term) (compared : Unit → { r : Bool // r = s.alike t }) :
    unlessIdentical s t compared = s.alike t := (compared ()).2

mutual

/-- Comparison of structure in which shared subterms are not looked into twice. -/
def compareShared : (s t : Term) → { r : Bool // r = s.alike t }
  | unary _ op a, unary _ op' a' =>
    ⟨op == op' && unlessIdentical a a' (fun _ => compareShared a a'),
      by simp only [alike, unlessIdentical_eq_alike]⟩
  | binary _ op a b, binary _ op' a' b' =>
    ⟨op == op' && unlessIdentical a a' (fun _ => compareShared a a') &&
        unlessIdentical b b' (fun _ => compareShared b b'),
      by simp only [alike, unlessIdentical_eq_alike]⟩
  | ternary _ op a b c, ternary _ op' a' b' c' =>
    ⟨op == op' && unlessIdentical a a' (fun _ => compareShared a a') &&
        unlessIdentical b b' (fun _ => compareShared b b') &&
        unlessIdentical c c' (fun _ => compareShared c c'),
      by simp only [alike, unlessIdentical_eq_alike]⟩
  | junction _ op items, junction _ op' items' =>
    ⟨op == op' && (compareAllShared items items').1,
      by simp only [alike, (compareAllShared items items').2]⟩
  | s, t => ⟨s.alike t, rfl⟩

def compareAllShared : (ss ts : List Term) → { r : Bool // r = alikeAll ss ts }
  | a :: as, b :: bs =>
    ⟨unlessIdentical a b (fun _ => compareShared a b) && (compareAllShared as bs).1,
      by simp only [alikeAll, unlessIdentical_eq_alike, (compareAllShared as bs).2]⟩
  | ss, ts => ⟨alikeAll ss ts, rfl⟩

end

/-- Equality of structure; one and the same object is not looked into. -/
def same (s t : Term) : Bool := unlessIdentical s t fun _ => compareShared s t

theorem same_eq_alike (s t : Term) : s.same t = s.alike t := unlessIdentical_eq_alike ..

def isLiteral : Term → Bool
  | leaf _ (.var _ _) => false
  | leaf _ _ => true
  | _ => false

def bool? : Term → Option Bool
  | leaf _ (.bool b) => some b
  | _ => none

/-- Signed value of a bit-vector literal. -/
def int? : Term → Option Int
  | leaf _ (.bitVec bits width) => some (Bits.toInt bits width)
  | _ => none

def var? : Term → Option String
  | leaf _ (.var name _) => some name
  | _ => none

def Atom.text : Atom → String
  | bool b => if b then "true" else "false"
  | bitVec bits width => toString (Bits.toInt bits width) ++ ":bv" ++ toString width
  | float bits format =>
    if format = .single then Precision.single.text bits ++ "f" else Precision.double.text bits ++ "d"
  | var name _ => name

def UnaryOp.name : UnaryOp → String
  | not => "not"
  | bits .neg => "bvneg"
  | bits .not => "bvnot"
  | signExtend n => "sext" ++ toString n
  | zeroExtend n => "zext" ++ toString n
  | extract high low => "extract" ++ toString high ++ ":" ++ toString low
  | fpNeg => "fp.neg"
  | fpIsNaN => "fp.isNaN"
  | fpToFp _ => "to_fp"
  | bvToFp _ => "sbv_to_fp"
  | fpToSbv _ => "fp_to_sbv"

def bitsName : Bits.BinaryOp → String
  | .add => "bvadd"
  | .sub => "bvsub"
  | .mul => "bvmul"
  | .sdiv => "bvsdiv"
  | .srem => "bvsrem"
  | .and => "bvand"
  | .or => "bvor"
  | .xor => "bvxor"
  | .shl => "bvshl"
  | .lshr => "bvlshr"
  | .ashr => "bvashr"

def compareName : Bits.CompareOp → String
  | .slt => "bvslt"
  | .sle => "bvsle"
  | .sgt => "bvsgt"
  | .sge => "bvsge"

def BinaryOp.name : BinaryOp → String
  | xor => "xor"
  | eq => "="
  | bits op => bitsName op
  | compare op => compareName op
  | fp .add => "fp.add"
  | fp .sub => "fp.sub"
  | fp .mul => "fp.mul"
  | fp .div => "fp.div"
  | fp .rem => "fp.rem"
  | fpCompare .lt => "fp.lt"
  | fpCompare .le => "fp.le"
  | fpCompare .gt => "fp.gt"
  | fpCompare .ge => "fp.ge"
  | fpCompare .eq => "fp.eq"
  | select => "select"

def TernaryOp.name : TernaryOp → String
  | ite => "ite"
  | store => "store"

def Junction.name : Junction → String
  | and => "and"
  | or => "or"

mutual

def text : Term → String
  | leaf _ atom => atom.text
  | unary _ op a => "(" ++ op.name ++ " " ++ a.text ++ ")"
  | binary _ op a b => "(" ++ op.name ++ " " ++ a.text ++ " " ++ b.text ++ ")"
  | ternary _ op a b c => "(" ++ op.name ++ " " ++ a.text ++ " " ++ b.text ++ " " ++ c.text ++ ")"
  | junction _ op items => "(" ++ op.name ++ textAll items ++ ")"

/-- Texts of the items, a blank before each. -/
def textAll : List Term → String
  | [] => ""
  | t :: ts => " " ++ t.text ++ textAll ts

end

end Term
end SinkReach
