import SinkReach.Term.Dag
import SinkReach.Term.Eval

/-!
Facts that single conjuncts state about single constants: a value it must have, values it must not
have, bounds on its signed value, and elements of an array. An empty interval, two different values of
one constant, or a value that is also excluded refute the conjunction.
-/
namespace SinkReach.ModelSearch

mutual

/-- Puts the conjuncts of a constraint before others, nested conjunctions being opened. -/
def openConjunction : Term → List Term → List Term
  | .junction _ .and items, others => openConjunctions items others
  | t, others => t :: others

def openConjunctions : List Term → List Term → List Term
  | [], others => others
  | t :: ts, others => openConjunction t (openConjunctions ts others)

end

/-- The signed integers of a width. -/
def signedRange (width : Nat) : Int × Int :=
  let half : Int := Nat.pow 2 (Bits.kept width - 1)
  (-half, half - 1)

/-- Value of a literal. -/
def literal? (t : Term) : Option Value :=
  if t.isLiteral then (t.eval {}).toOption else none

structure Facts where
  intervals : Table String (Int × Int)
  pins : Table String Value
  excluded : Table String (List Value)
  elements : Table String (List (Value × Value))
  contradiction : Bool

namespace Facts

/-- What the sorts of the constants say. -/
def initial (vars : Table String TermSort) : Facts where
  intervals := ⟨vars.entries.filterMap fun (name, sort) =>
    sort.width?.map fun width => (name, signedRange width)⟩
  pins := {}
  excluded := {}
  elements := {}
  contradiction := false

def contradict (f : Facts) : Facts := { f with contradiction := true }

/-- The constant has the value. -/
def pin (f : Facts) (name : String) (v : Value) : Facts :=
  match f.pins.get? name with
  | some w => if w.same v then f else f.contradict
  | none => { f with pins := f.pins.insert name v }

/-- The constant does not have the value. -/
def exclude (f : Facts) (name : String) (v : Value) : Facts :=
  { f with excluded := f.excluded.insert name ((f.excluded.get? name).getD [] ++ [v]) }

/-- The constant is at least `n`. -/
def atLeast (f : Facts) (name : String) (n : Int) : Facts :=
  match f.intervals.get? name with
  | some (lo, hi) => { f with intervals := f.intervals.insert name (max lo n, hi) }
  | none => f

/-- The constant is at most `n`. -/
def atMost (f : Facts) (name : String) (n : Int) : Facts :=
  match f.intervals.get? name with
  | some (lo, hi) => { f with intervals := f.intervals.insert name (lo, min hi n) }
  | none => f

/-- The array constant has the element at the index. -/
def element (f : Facts) (name : String) (index v : Value) : Facts :=
  let known := (f.elements.get? name).getD []
  match known.find? fun e => e.1.same index with
  | some (_, w) => if w.same v then f else f.contradict
  | none => { f with elements := f.elements.insert name (known ++ [(index, v)]) }

/-- A constant equals a literal, or differs from it. -/
def learnEq (f : Facts) (name : String) (lit : Term) (positive : Bool) : Facts :=
  match literal? lit with
  | none => f
  | some v =>
    if positive then
      let f := match v with
        | .bitVec bits width =>
          (f.atLeast name (Bits.toInt bits width)).atMost name (Bits.toInt bits width)
        | _ => f
      f.pin name v
    else f.exclude name v

/-- An element of an array equals a literal. -/
def learnElement (f : Facts) (array index lit : Term) : Facts :=
  match array.var?, literal? index, literal? lit with
  | some name, some i, some v => f.element name i v
  | _, _, _ => f

def flip : Bits.CompareOp → Bits.CompareOp
  | .slt => .sgt
  | .sle => .sge
  | .sgt => .slt
  | .sge => .sle

def negate : Bits.CompareOp → Bits.CompareOp
  | .slt => .sge
  | .sle => .sgt
  | .sgt => .sle
  | .sge => .slt

/-- A constant compares with a number. -/
def learnBound (f : Facts) (name : String) (op : Bits.CompareOp) (n : Int) : Facts :=
  match op with
  | .slt => f.atMost name (n - 1)
  | .sle => f.atMost name n
  | .sgt => f.atLeast name (n + 1)
  | .sge => f.atLeast name n

def learnCompare (f : Facts) (op : Bits.CompareOp) (a b : Term) (positive : Bool) : Facts :=
  let side (op : Bits.CompareOp) := if positive then op else negate op
  match a.var?, b.int?, b.var?, a.int? with
  | some name, some n, _, _ => f.learnBound name (side op) n
  | _, _, some name, some n => f.learnBound name (side (flip op)) n
  | _, _, _, _ => f

def learnEquation (f : Facts) (a b : Term) (positive : Bool) : Facts :=
  match a.var?, b.isLiteral, b.var?, a.isLiteral with
  | some name, true, _, _ => f.learnEq name b positive
  | _, _, some name, true => f.learnEq name a positive
  | _, _, _, _ =>
    if positive then
      match a, b with
      | .binary _ .select array index, _ =>
        if b.isLiteral then f.learnElement array index b else f
      | _, .binary _ .select array index => if a.isLiteral then f.learnElement array index a else f
      | _, _ => f
    else f

/-- What a conjunct says if it is true, or false. -/
def learn (f : Facts) (positive : Bool) : Term → Facts
  | .unary _ .not a => f.learn (!positive) a
  | .leaf _ (.var name .bool) => f.pin name (.bool positive)
  | .binary _ .eq a b => f.learnEquation a b positive
  | .binary _ (.compare op) a b => f.learnCompare op a b positive
  | _ => f

def isExcluded (f : Facts) (name : String) (v : Value) : Bool :=
  ((f.excluded.get? name).getD []).any fun w => w.same v

/-- Whether the facts refute the conjunction. -/
def refuted (f : Facts) : Bool :=
  f.contradiction || f.intervals.entries.any (fun (_, lo, hi) => hi < lo) ||
    f.pins.entries.any fun (name, v) => f.isExcluded name v

def ofConjuncts (vars : Table String TermSort) (conjuncts : List Term) : Facts :=
  conjuncts.foldl (fun f t => f.learn true t) (initial vars)

end Facts
end SinkReach.ModelSearch
