import SinkReach.Step.State
import SinkReach.Symbolic.Machine

/-!
Merging of two states that reached the same node. Locations whose contents differ become conditionals on
the path condition of the earlier state, and the path condition becomes the disjunction of both. What
one side does not know is unknown there, so that no side is constrained beyond its own condition.
-/
namespace SinkReach

/-- Value of a local in the merged state. -/
def mergeLocal (guard : Term) (id : LocalId) : Option SymValue → Option SymValue → Run SymValue
  | some v, some w => do
    if v.same w then return v
    liftExcept (Machine.choose (← freshLabel) guard v w)
  | v, w => do
    let v ← known v
    let w ← known w
    liftExcept (Machine.choose (← freshLabel) guard v w)
where
  /-- The value, unknown if there is none. -/
  known : Option SymValue → Run SymValue
    | some v => return v
    | none => Machine.unknown id.ty

def mergeLocals (guard : Term) (lhs rhs : Memory) : Run (Table LocalId SymValue) := do
  return ⟨← (lhs.locals.unionKeys rhs.locals).mapM fun id => do
    return (id, ← mergeLocal guard id (lhs.local? id) (rhs.local? id))⟩

/-- Array of a chunk in the merged state; uses three labels. -/
def mergeArray (l : Label) (guard : Term) (c : Chunk) (lhs rhs : Memory) : Except Fault Term :=
  let a := lhs.array l c
  let b := rhs.array (l + 1) c
  if a.same b then .ok a else Term.conditional (l + 2) guard a b

def mergeFields (guard : Term) (lhs rhs : Memory) : Symbolic (Table Chunk Term) := do
  return ⟨← (lhs.fields.unionKeys rhs.fields).mapM fun c => do
    return (c, ← liftExcept (mergeArray (← freshLabel) guard c lhs rhs))⟩

/-- Greater count of each method. -/
def mergeCounts (lhs rhs : Table Method Nat) : Table Method Nat :=
  rhs.entries.foldl (fun t e => t.insert e.1 (max ((t.get? e.1).getD 0) e.2)) lhs

/-- What a sum of 32 bits does beyond its range: a build that does not check for it drops the carry, a build
that does stops. -/
inductive Overflow where
  | wraps
  | panics
deriving DecidableEq, Repr, Inhabited

/-- Merges that both sides have behind them and the one that joins them, counted in 32 bits. -/
def mergeTally (o : Overflow) (lhs rhs : Nat) : Except Fault Nat :=
  let sum := lhs + rhs + 1
  if sum < Bits.modulus 32 then .ok sum
  else match o with
    | .wraps => .ok (Bits.mask sum 32)
    | .panics => .error .overflow

/-- Symbolic state that stands for both. -/
def SymState.merge (lhs rhs : SymState) : Symbolic SymState := do
  let l ← freshLabel
  let guard := lhs.pathCondition l
  let other := rhs.pathCondition (l + 1)
  let (locals, fresh) ← Machine.on rhs do
    let locals ← mergeLocals guard lhs.memory rhs.memory
    return (locals, ← Machine.drain)
  let fields ← mergeFields guard lhs.memory rhs.memory
  let merged := SymState.ofParts [.or (l + 2) guard other] ⟨locals, fields⟩
    (max lhs.nextAddress rhs.nextAddress)
  return merged.updateAll (← freshLabels fresh.length) fresh

/-- Merges an incoming state into the one kept at its node, whose stack is kept. -/
def ExecState.merge (previous incoming : ExecState) (o : Overflow := .panics) : Symbolic ExecState := do
  match previous.path.merge? incoming.path with
  | none => throw (.differentEnds previous.node incoming.node)
  | some path =>
    let symbolic ← previous.symbolic.merge incoming.symbolic
    let merged ← liftExcept (mergeTally o previous.merged incoming.merged)
    return {
      path, symbolic, merged
      stack := previous.stack
      counts := mergeCounts previous.counts incoming.counts }

end SinkReach
