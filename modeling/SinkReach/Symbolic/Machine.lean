import SinkReach.Symbolic.Operation
import SinkReach.Symbolic.Registry
import SinkReach.Symbolic.State

/-!
A machine that builds typed symbolic values against one state. The state itself never changes: effects
are gathered as updates and taken out once an instruction is done. Fresh names and labels come from a
context that outlives the machine, and stay used when a step fails.
-/
namespace SinkReach

/-- What all states of one analysis share. -/
structure Context where
  registry : Registry := .empty
  locals : Nat := 0
  unbounded : Nat := 0
  labels : Nat := 1
deriving Inhabited

namespace Context

/-- Number of fresh constants so far. -/
def freshCount (c : Context) : Nat := c.locals + c.unbounded

end Context

/-- Operations that draw on a context and may fail. -/
abbrev Symbolic := ExceptT Fault (StateM Context)

/-- Labels handed out at a time. -/
def labelBlock : Nat := 128

/-- First of a block of unused labels. -/
def freshLabel [Monad m] [MonadStateOf Context m] : m Label :=
  modifyGetThe Context fun c => (c.labels, { c with labels := c.labels + labelBlock })

/-- First of enough unused labels for a number of updates. -/
def freshLabels [Monad m] [MonadStateOf Context m] (updates : Nat) : m Label :=
  modifyGetThe Context fun c => (c.labels, { c with labels := c.labels + 2 * updates })

structure Machine where
  base : SymState
  pending : List Update
  nextAddress : Nat

/-- Operations of a machine. -/
abbrev Run := ExceptT Fault (StateT Machine (StateM Context))

namespace Machine

def start (s : SymState) : Machine := ⟨s, [], s.nextAddress⟩

/-- Gathers an effect. -/
def emit (u : Update) : Run Unit :=
  modifyThe Machine fun m => { m with pending := m.pending ++ [u] }

/-- Takes the gathered effects out. -/
def drain : Run (List Update) :=
  modifyGetThe Machine fun m => (m.pending, { m with pending := [] })

def assume (condition : Term) : Run Unit := emit (.constraint condition)

/-- Fresh constant for a local, field or unknown result. -/
def freshVar (l : Label) (sort : TermSort) : Run Term :=
  modifyGetThe Context fun c =>
    (.var l ("local_" ++ toString c.locals) sort, { c with locals := c.locals + 1 })

/-- Fresh constant for a literal whose content is not modelled. -/
def freshLiteral (l : Label) (sort : TermSort) : Run Term :=
  modifyGetThe Context fun c =>
    (.var l ("unbounded_" ++ toString c.unbounded) sort, { c with unbounded := c.unbounded + 1 })

/-- Constraint on the type of an address, the type being registered on first use. -/
def typed (build : Registry → Term × Registry) : Run Term :=
  modifyGetThe Context fun c =>
    let (t, r) := build c.registry
    (t, { c with registry := r })

/-- Unknown value of a type; a reference is of that type or null. -/
def unknown (ty : Ty) : Run SymValue := do
  let l ← freshLabel
  match ty with
  | .void => return .void l
  | .null => return .null l
  | .ref _ | .array _ =>
    let address ← freshVar l Address.sort
    assume (← typed fun r => r.typeOrNull (l + 1) address ty)
    return .reference ty address
  | _ => return .primitive ty (← freshVar l ty.sort)

def bind (id : LocalId) (v : SymValue) : Run Unit := emit (.bind id v)

/-- Binds a local to an unknown value of its type. -/
def declare (id : LocalId) : Run SymValue := do
  let v ← unknown id.ty
  bind id v
  return v

/-- The latest gathered binding of a local. -/
def pendingLocal? (id : LocalId) : List Update → Option SymValue
  | [] => none
  | u :: us =>
    match pendingLocal? id us with
    | some v => some v
    | none =>
      match u with
      | .bind id' v => if id' = id then some v else none
      | _ => none

/-- Current value of a local, gathered bindings included. -/
def local? (id : LocalId) : Run (Option SymValue) := do
  let m ← getThe Machine
  return (pendingLocal? id m.pending).orElse fun _ => m.base.memory.local? id

/-- New object of exactly a type at the next free address. -/
def allocate (ty : Ty) : Run SymValue := do
  let l ← freshLabel
  let address := (← getThe Machine).nextAddress
  modifyThe Machine fun m => { m with nextAddress := address + 1 }
  emit (.allocate (address + 1))
  let t := Term.ofInt l address Address.width
  assume (← typed fun r => r.typeConstraint (l + 1) t ty)
  return .reference ty t

/-- Value of a literal; texts and class literals are objects of unknown content. -/
def constant (c : Constant) : Run SymValue := do
  let l ← freshLabel
  match c with
  | .int n => return .primitive .int (.ofInt l n 32)
  | .long n => return .primitive .long (.ofInt l n 64)
  | .float bits => return .primitive .float (.ofFloatBits l bits .single)
  | .double bits => return .primitive .double (.ofFloatBits l bits .double)
  | .null => return .null l
  | .string _ | .classLiteral _ =>
    let address ← freshLiteral l Address.sort
    assume (← typed fun r => r.typeConstraint (l + 1) address c.ty)
    return .reference c.ty address

/-- Address of a value whose field is accessed. -/
def addressOf (v : SymValue) (f : Field) : Except Fault Term :=
  match v with
  | .reference _ address => .ok address
  | .primitive _ _ => .error (.fieldOfPrimitive f v)

/-- Element of a field at an address, in the state before the gathered effects. -/
def read (address : Term) (f : Field) : Run SymValue := do
  let l ← freshLabel
  let m ← getThe Machine
  return .wrap f.ty (.select l (m.base.memory.array (l + 1) (.ofField f)) address)

def readField (v : SymValue) (f : Field) : Run SymValue := do
  read (← liftExcept (addressOf v f)) f

/-- Static fields are kept at the null address. -/
def readStatic (f : Field) : Run SymValue := do
  read (Address.null (← freshLabel)) f

/-- Term of a value in the sort of a location's type. -/
def coerce (l : Label) (v : SymValue) (ty : Ty) : Except Fault Term :=
  match v with
  | .primitive source t => if ty.isPrimitive then t.cast l source ty else .error (.noStorage v ty)
  | .reference _ address => if ty.isReference then .ok address else .error (.noStorage v ty)

def write (address : Term) (f : Field) (v : SymValue) : Run Unit := do
  let l ← freshLabel
  emit (.store (.ofField f) address (← liftExcept (coerce l v f.ty)))

def writeField (base : SymValue) (f : Field) (v : SymValue) : Run Unit := do
  write (← liftExcept (addressOf base f)) f v

def writeStatic (f : Field) (v : SymValue) : Run Unit := do
  write (Address.null (← freshLabel)) f v

/-- Operand of an operator; a `char` enters as a number that is not negative. -/
def promote (l : Label) (ty : Ty) (t : Term) : Except Fault Term :=
  if ty = .char then t.cast l .char .int else .ok t

/-- Result of an operator on two primitive values or two references, in the sort of the result type if
that is primitive; uses 112 labels. -/
def operate (l : Label) (op : Operator) (lhs rhs : SymValue) (ty : Ty) : Except Fault SymValue := do
  let t ← match lhs, rhs with
    | .reference _ a, .reference _ b => op.apply l a b
    | .primitive s a, .primitive t b => do
      let a ← promote (l + 48) s a
      let b ← promote (l + 80) t b
      op.apply l a b
    | _, _ => .error (.operatorBetween op lhs rhs)
  let t ← if ty.isPrimitive ∧ t.sort ≠ ty.sort then t.convert (l + 112) ty.sort else .ok t
  return .primitive ty t

def binary (op : Operator) (lhs rhs : SymValue) (ty : Ty) : Run SymValue := do
  liftExcept (operate (← freshLabel) op lhs rhs ty)

def negate (v : SymValue) : Run SymValue := do
  let l ← freshLabel
  match v with
  | .primitive ty t => return .primitive ty (← liftExcept (Operator.negate l t))
  | .reference _ _ => throw (.negationOfReference v)

/-- Value of another type: primitive values are converted, anything else is unknown. -/
def cast (v : SymValue) (ty : Ty) : Run SymValue := do
  if v.ty = ty then return v
  match v with
  | .primitive source t =>
    if ty.isPrimitive then
      let l ← freshLabel
      return .primitive ty (← liftExcept (t.cast l source ty))
    else unknown ty
  | .reference _ _ => unknown ty

/-- Value stored into a location of a type: a reference keeps its address and takes the type. -/
def declaredAs (v : SymValue) (ty : Ty) : Run SymValue :=
  match v with
  | .reference source address =>
    if ty.isReference ∧ source ≠ ty then return .reference ty address else cast v ty
  | .primitive _ _ => cast v ty

/-- One of two values, by a condition; a null takes the type of the other reference. -/
def choose (l : Label) (condition : Term) (lhs rhs : SymValue) : Except Fault SymValue :=
  match lhs, rhs with
  | .primitive s a, .primitive t b => do
    let b ← if s = t then .ok b else b.cast l t s
    return .primitive s (← Term.conditional (l + 32) condition a b)
  | .reference s a, .reference t b => do
    return .reference (if s = .null then t else s) (← Term.conditional l condition a b)
  | _, _ => .error (.noCommonType lhs.ty rhs.ty)

/-- The boolean term of a condition. -/
def condition (v : SymValue) : Except Fault Term :=
  match v with
  | .primitive _ t => if t.sort = .bool then .ok t else .error (.notCondition v)
  | .reference _ _ => .error (.notCondition v)

/-- Runs operations on a state. -/
def on (s : SymState) (x : Run α) : Symbolic α := fun c =>
  let ((r, _), c) := (x.run (start s)).run c
  (r, c)

end Machine
end SinkReach
