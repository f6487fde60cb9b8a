import SinkReach.Term.Basic

/-!
Evaluation of terms under an assignment, with the semantics of SMT-LIB. Conjunctions and disjunctions
stop at the first item that decides them, a conditional evaluates the chosen branch only, and of the
floating-point formats only single and double precision have values.
-/
namespace SinkReach

/-- Why a term has no value. -/
inductive EvalError where
  | unbound (name : String)
  | floatFormat (format : FloatFormat)
  | conversion (sort : TermSort)
  | unsupported (term : Term)
  | illSorted (term : Term)

namespace EvalError

def message : EvalError → String
  | unbound name => "unbound constant '" ++ name ++ "'"
  | floatFormat f =>
    "cannot evaluate float format (" ++ toString f.exponent ++ ", " ++ toString f.significand ++ ")"
  | conversion s => "cannot evaluate conversion to " ++ s.text
  | unsupported t => "cannot evaluate " ++ t.text
  | illSorted t => "ill-sorted operands in " ++ t.text

end EvalError

/-- Value of a term, or the reason why there is none. -/
abbrev Outcome := Except EvalError

namespace Value

/-- Truth value of an operand. -/
def toBool (operand : Term) : Value → Outcome Bool
  | bool b => .ok b
  | _ => .error (.illSorted operand)

/-- Bits and width of an operand. -/
def toBits (operand : Term) : Value → Outcome (Nat × Nat)
  | bitVec bits width => .ok (bits, width)
  | _ => .error (.illSorted operand)

end Value

namespace FloatOp

/-- Single-precision operations compute in double precision and round the result once more. -/
def apply (op : FloatOp) (p : Precision) (x y : Nat) : Nat :=
  let d := Precision.double
  let narrow (z : Nat) : Nat := p.convert d (d.convert p z)
  let compute (x y : Nat) : Nat := match op with
    | add => d.add x y
    | sub => d.sub x y
    | mul => d.mul x y
    | div => d.div x y
    | rem => d.remainder narrow x y
  match p with
  | .double => compute x y
  | .single => d.convert p (compute (p.convert d x) (p.convert d y))

end FloatOp

namespace FloatCompareOp

def holds (op : FloatCompareOp) (p : Precision) (x y : Nat) : Bool :=
  match op with
  | lt => p.lt x y
  | le => p.le x y
  | gt => p.lt y x
  | ge => p.le y x
  | eq => p.eq x y

end FloatCompareOp

namespace Term

def Atom.eval (env : Assignment) : Atom → Outcome Value
  | bool b => .ok (.bool b)
  | bitVec bits width => .ok (.bitVec bits width)
  | float bits format =>
    match format.precision? with
    | some p => .ok (.float p bits)
    | none => .error (.floatFormat format)
  | var name _ =>
    match env.get? name with
    | some v => .ok v
    | none => .error (.unbound name)

/-- Result of a unary operation, given the whole term, its operand and the operand's value. -/
def UnaryOp.apply (whole operand : Term) (v : Value) : UnaryOp → Outcome Value
  | not => do return .bool (!(← v.toBool operand))
  | bits op => do
    let (x, width) ← v.toBits operand
    return .bitVec (op.apply x width) width
  | signExtend extra => do
    let (x, width) ← v.toBits operand
    return .ofInt (Bits.toInt x width) (width + extra)
  | zeroExtend extra => do
    let (x, width) ← v.toBits operand
    return .bitVec x (width + extra)
  | extract high low => do
    let (x, _) ← v.toBits operand
    return .bitVec (Bits.mask (x >>> low) (high - low + 1)) (high - low + 1)
  | fpNeg =>
    match v with
    | .float p x => .ok (.float p (p.neg x))
    | _ => .error (.illSorted whole)
  | fpIsNaN =>
    match v with
    | .float p x => .ok (.bool (p.isNaN x))
    | _ => .error (.illSorted whole)
  | fpToFp format =>
    match v.toDouble? with
    | none => .error (.illSorted whole)
    | some x =>
      match format.precision? with
      | some p => .ok (.float p (Precision.double.convert p x))
      | none => .error (.conversion (.float format))
  | bvToFp format => do
    let (x, width) ← v.toBits operand
    match format.precision? with
    | some p => return .float p (p.ofInt (Bits.toInt x width))
    | none => .error (.unsupported whole)
  | fpToSbv width =>
    match v.toDouble? with
    | none => .error (.illSorted whole)
    | some x => .ok (.ofInt (Precision.double.toInt64 x) width)

/-- Check of the first operand's value that comes before the second operand is evaluated. -/
def BinaryOp.precheck (operand : Term) (v : Value) : BinaryOp → Outcome Unit
  | xor => do let _ ← v.toBool operand
  | bits _ | compare _ => do let _ ← v.toBits operand
  | _ => .ok ()

/-- Result of a binary operation, given the whole term, its operands and their values. -/
def BinaryOp.apply (whole a b : Term) (v w : Value) : BinaryOp → Outcome Value
  | xor => do
    let x ← v.toBool a
    let y ← w.toBool b
    return .bool (x != y)
  | eq => .ok (.bool (v.same w))
  | bits op => do
    let (x, width) ← v.toBits a
    let (y, width') ← w.toBits b
    if width = width' then return .bitVec (op.apply x y width) width else .error (.illSorted whole)
  | compare op => do
    let (x, width) ← v.toBits a
    let (y, _) ← w.toBits b
    return .bool (op.holds (Bits.toInt x width) (Bits.toInt y width))
  | fp op =>
    match v, w with
    | .float p x, .float q y =>
      if p = q then .ok (.float p (op.apply p x y)) else .error (.illSorted whole)
    | _, _ => .error (.illSorted whole)
  | fpCompare op =>
    match v, w with
    | .float p x, .float q y =>
      if p = q then .ok (.bool (op.holds p x y)) else .error (.illSorted whole)
    | _, _ => .error (.illSorted whole)
  | select =>
    match v with
    | .array x => .ok (x.get w)
    | _ => .error (.illSorted whole)

/-- Result of writing an element into an array. -/
def storeValue (whole : Term) (array index element : Value) : Outcome Value :=
  match array with
  | .array a => .ok (.array (a.set index element))
  | _ => .error (.illSorted whole)

/-- The truth value at which a junction stops. -/
def Junction.absorbing : Junction → Bool
  | and => false
  | or => true

mutual

/-- Value of a term under an assignment. -/
def eval (env : Assignment) : Term → Outcome Value
  | leaf _ atom => atom.eval env
  | unary l op a => do
    let v ← a.eval env
    op.apply (unary l op a) a v
  | binary l .select a b => do
    let w ← b.eval env
    let v ← a.eval env
    BinaryOp.select.apply (binary l .select a b) a b v w
  | binary l op a b => do
    let v ← a.eval env
    op.precheck a v
    let w ← b.eval env
    op.apply (binary l op a b) a b v w
  | ternary _ .ite c a b => do
    let v ← c.eval env
    if ← v.toBool c then a.eval env else b.eval env
  | ternary l .store a i e => do
    let index ← i.eval env
    let element ← e.eval env
    let array ← a.eval env
    storeValue (ternary l .store a i e) array index element
  | junction _ op items => do return .bool (← evalItems env op.absorbing items)

/-- Truth value of a junction's items from left to right, up to the first absorbing one. -/
def evalItems (env : Assignment) (absorbing : Bool) : List Term → Outcome Bool
  | [] => .ok !absorbing
  | t :: ts => do
    let v ← t.eval env
    let b ← v.toBool t
    if b = absorbing then return absorbing else evalItems env absorbing ts

end

/-- Truth value of a boolean term. -/
def evalBool (env : Assignment) (t : Term) : Outcome Bool := do
  let v ← t.eval env
  v.toBool t

end Term
end SinkReach
