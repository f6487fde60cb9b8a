import Std.Data.HashMap
import SinkReach.Term.Eval

/-!
Evaluation that remembers the values of shared nodes. A remembered value counts only for a term of the
structure it was computed for, so nothing depends on labels being unique.
-/
namespace SinkReach.Term

/-- Remembered values by label, each with the term it belongs to. -/
abbrev Memory := Std.HashMap Label (Term × Value)

/-- Evaluation with memory, which an error leaves as it is. -/
abbrev Remembering := ExceptT EvalError (StateM Memory)

/-- Answers from memory, or computes and remembers. -/
def remember (t : Term) (compute : Remembering Value) : Remembering Value := do
  match (← get)[t.label]? with
  | some (u, v) => if u.same t then return v
  | none => pure ()
  let v ← compute
  modify (·.insert t.label (t, v))
  return v

mutual

/-- Value of a term, from memory where it is known. -/
def recallValue (env : Assignment) : Term → Remembering Value
  | leaf _ atom => liftExcept (atom.eval env)
  | t@(unary _ op a) => remember t do
    let v ← a.recallValue env
    liftExcept (op.apply t a v)
  | t@(binary _ .select a b) => remember t do
    let w ← b.recallValue env
    let v ← a.recallValue env
    liftExcept (BinaryOp.select.apply t a b v w)
  | t@(binary _ op a b) => remember t do
    let v ← a.recallValue env
    liftExcept (op.precheck a v)
    let w ← b.recallValue env
    liftExcept (op.apply t a b v w)
  | t@(ternary _ .ite c a b) => remember t do
    let v ← c.recallValue env
    if ← liftExcept (v.toBool c) then a.recallValue env else b.recallValue env
  | t@(ternary _ .store a i e) => remember t do
    let index ← i.recallValue env
    let element ← e.recallValue env
    let array ← a.recallValue env
    liftExcept (storeValue t array index element)
  | t@(junction _ op items) => remember t do
    return .bool (← recallItems env op.absorbing items)

def recallItems (env : Assignment) (absorbing : Bool) : List Term → Remembering Bool
  | [] => return !absorbing
  | t :: ts => do
    let v ← t.recallValue env
    let b ← liftExcept (v.toBool t)
    if b = absorbing then return absorbing else recallItems env absorbing ts

end

def recallBool (env : Assignment) (t : Term) : Remembering Bool := do
  let v ← t.recallValue env
  liftExcept (v.toBool t)

/-- Value of one term, computed with a memory of its own. -/
def evalShared (env : Assignment) (t : Term) : Outcome Value := ((t.recallValue env).run {}).1

end SinkReach.Term
