import SinkReach.Symbolic.Machine

/-!
Effects of single instructions: what an instruction does to values and memory is gathered by the
machine, what it asks of control flow is its effect. Elements and lengths of arrays, new arrays and type
tests are not modelled: they read as unknown values, and stores into arrays leave no trace.
-/
namespace SinkReach

/-- What an instruction asks of control flow. -/
inductive Effect where
  /-- Goes on to every successor. -/
  | goOn
  /-- Has bound a parameter. -/
  | parameter (id : LocalId)
  /-- Goes to the target under one condition and elsewhere under the other. -/
  | branch (onTrue onFalse : Term) (target : InstrId)
  /-- Goes to targets under conditions, the default last. -/
  | switch (cases : List (Term × InstrId))
  /-- Calls a method; the local takes the result. -/
  | call (callee : Method) (arguments : List SymValue) (result : Option LocalId)
  /-- Leaves the method with a value. -/
  | ret (value : SymValue)

namespace Effect

def name : Effect → String
  | goOn => "no-op"
  | parameter _ => "parameter"
  | branch _ _ _ => "conditional"
  | switch _ => "switch"
  | call _ _ _ => "call"
  | ret _ => "return"

/-- Value of a local of the method. -/
def ofLocal (m : Method) (l : Local) : Run SymValue := do
  match ← Machine.local? (.ofLocal m l) with
  | some v => return v
  | none => throw (.unboundLocal l.name m)

def ofOperand (m : Method) : Operand → Run SymValue
  | .loc l => ofLocal m l
  | .const c => Machine.constant c

def ofRvalue (m : Method) : Rvalue → Run SymValue
  | .use a => ofOperand m a
  | .binary op a b ty => do
    let a ← ofOperand m a
    let b ← ofOperand m b
    Machine.binary op a b ty
  | .neg a => do Machine.negate (← ofOperand m a)
  | .cast a ty => do Machine.cast (← ofOperand m a) ty
  | .instanceOf _ _ => Machine.unknown .boolean
  | .new ty => Machine.allocate ty
  | .newArray element _ => Machine.unknown (.array element)
  | .length _ => Machine.unknown .int
  | .instanceField base f => do Machine.readField (← ofLocal m base) f
  | .staticField f => Machine.readStatic f
  | .arrayElement _ _ ty => Machine.unknown ty
  | .invoke c => throw (.callOutsideAssignment c.method)

/-- Assigns a value; the object of a field is looked up before the value is computed. -/
def assign (m : Method) (place : Place) (value : Run SymValue) : Run Unit := do
  match place with
  | .loc l =>
    let id := LocalId.ofLocal m l
    Machine.bind id (← Machine.declaredAs (← value) id.ty)
  | .instanceField base f =>
    let base ← ofLocal m base
    Machine.writeField base f (← value)
  | .staticField f => Machine.writeStatic f (← value)
  | .arrayElement _ _ => discard value

/-- Values passed to a callee, the receiver first if the call has one. -/
def arguments (m : Method) (c : Invoke) : Run (List SymValue) := do
  let receiver ← if c.kind.hasReceiver then
      match c.base with
      | some l => do pure [← ofLocal m l]
      | none => throw (.noReceiver c.kind c.method)
    else pure []
  return receiver ++ (← c.args.mapM (ofOperand m))

/-- Condition that a key compares with a number. -/
def keyTest (key : SymValue) (op : Operator) (n : Int) : Run Term := do
  let n ← Machine.constant (.int n)
  liftExcept (Machine.condition (← Machine.binary op key n .boolean))

/-- Conditions for a key to equal each number. -/
def keyHits (key : SymValue) (values : List Int) : Run (List Term) := values.mapM (keyTest key .eq)

/-- Conditions of the cases of a switch, and of its default. -/
def switchCases (key : SymValue) : SwitchTable → Run (List (Term × InstrId) × Term)
  | .table low high targets => do
    if high - low + 1 ≠ targets.length then throw (.tableSize low high targets.length)
    let hits ← keyHits key ((List.range targets.length).map fun (i : Nat) => low + i)
    let below ← keyTest key .lt low
    let above ← keyTest key .gt high
    return (hits.zip targets, .or (← freshLabel) below above)
  | .lookup values targets => do
    if values.length ≠ targets.length then throw (.lookupSize values.length targets.length)
    let hits ← keyHits key values
    let l ← freshLabels (hits.length + 1)
    return (hits.zip targets, .andAll l (hits.zipIdx.map fun (t, i) => .not (l + 1 + i) t))

/-- Performs an instruction of a method. -/
def ofInstruction (m : Method) : Instruction → Run Effect
  | .assign (.loc l) (.invoke c) => do
    return call c.method (← arguments m c) (some (.ofLocal m l))
  | .assign _ (.invoke c) => throw (.resultNotLocal c.method)
  | .assign place value => do
    assign m place (ofRvalue m value)
    return goOn
  | .identity l _ => do
    let id := LocalId.ofLocal m l
    if (← Machine.local? id).isNone then discard (Machine.declare id)
    return parameter id
  | .branch condition target => do
    let onTrue ← liftExcept (Machine.condition (← ofRvalue m condition))
    return branch onTrue (.not (← freshLabel) onTrue) target
  | .switch key table default => do
    let (cases, otherwise) ← switchCases (← ofOperand m key) table
    return switch (cases ++ [(otherwise, default)])
  | .invoke c => do return call c.method (← arguments m c) none
  | .ret value => do return ret (← ofOperand m value)
  | .retVoid => do return ret (.void (← freshLabel))
  | .throw _ | .goto _ | .nop | .monitor _ _ => return goOn

end Effect
end SinkReach
