import SinkReach.Route.KeyPath
import SinkReach.Route.Node
import SinkReach.Symbolic.Value

/-!
Reasons for which a step of an analysis fails. Infeasible paths are verdicts, not faults. A sum that
overflows is no fault that an analysis reports: it stops the program.
-/
namespace SinkReach

inductive FaultKind where
  | missingState
  | resolution
  | unsupported
  | sortMismatch
  | graph
  | unbalancedReturn
  | merge
  | solver
deriving DecidableEq, Repr

/-- What a message of the kind begins with. -/
def FaultKind.heading : FaultKind → String
  | missingState => "Missing state: "
  | resolution => "Resolution error: "
  | unsupported => "Unsupported: "
  | sortMismatch => "Sort mismatch: "
  | graph => "Graph error: "
  | unbalancedReturn => "Unbalanced return: "
  | merge => "Merge error: "
  | solver => "Solver error: "

inductive Fault where
  | noState (node : Node)
  | noCallSite (method : Method)
  | unboundLocal (name : String) (method : Method)
  | unboundParameter (id : LocalId)
  | noSwitchCase (node : Node) (successor : InstrId)
  | fieldOfPrimitive (field : Field) (value : SymValue)
  | resultNotLocal (callee : Method)
  | noReceiver (kind : InvokeKind) (callee : Method)
  | tableSize (low high : Int) (targets : Nat)
  | lookupSize (values targets : Nat)
  | operatorOnSort (op : Operator) (sort : TermSort)
  | operatorBetween (op : Operator) (lhs rhs : SymValue)
  | negationOfSort (sort : TermSort)
  | negationOfReference (value : SymValue)
  | callOutsideAssignment (callee : Method)
  | noConversion (source target : TermSort)
  | arrayOperand (sort : TermSort)
  | noStorage (value : SymValue) (ty : Ty)
  | noCommonType (lhs rhs : Ty)
  | branchSorts (lhs rhs : TermSort)
  | conditionSort (sort : TermSort)
  | notCondition (value : SymValue)
  | noBody (method : Method)
  | unknownInstance (node : Node)
  | otherMethod (call : CallId) (owner given : Method)
  | noInstruction (method : Method) (instr : InstrId)
  | pruning (method : Method) (cause : Digraph.PruneError)
  | noSuchCallSite (site : InstrId) (method : Method)
  | offTaintPath (node : Node)
  | noReturnSite (node : Node)
  | callerWithoutKeys (method : Method)
  | differentEnds (lhs rhs : Node)
  | overflow
  | solver (reason : String)

/-- Kind of call in messages. -/
def InvokeKind.title : InvokeKind → String
  | virtual => "Virtual"
  | special => "Special"
  | interface => "Interface"
  | static => "Static"
  | dynamic => "Dynamic"

namespace Fault

def kind : Fault → FaultKind
  | noState _ | noCallSite _ => .missingState
  | unboundLocal _ _ | unboundParameter _ | noSwitchCase _ _ | fieldOfPrimitive _ _
  | resultNotLocal _ | noReceiver _ _ | tableSize _ _ _ | lookupSize _ _ => .resolution
  | operatorOnSort _ _ | operatorBetween _ _ _ | negationOfSort _ | negationOfReference _
  | callOutsideAssignment _ => .unsupported
  | noConversion _ _ | arrayOperand _ | noStorage _ _ | noCommonType _ _ | branchSorts _ _
  | conditionSort _ | notCondition _ => .sortMismatch
  | noBody _ | unknownInstance _ | otherMethod _ _ _ | noInstruction _ _ | pruning _ _
  | noSuchCallSite _ _ => .graph
  | offTaintPath _ | noReturnSite _ | callerWithoutKeys _ => .unbalancedReturn
  | differentEnds _ _ | overflow => .merge
  | solver _ => .solver

def detail : Fault → String
  | noState n => "no state at " ++ n.text
  | noCallSite m => "frame of " ++ m.text ++ " has no call site"
  | unboundLocal name m => name ++ " is not found in the locals of " ++ m.text
  | unboundParameter id => "parameter " ++ id.text ++ " is not bound"
  | noSwitchCase n i => "switch at " ++ n.text ++ " has no case for successor " ++ InstrId.text i
  | fieldOfPrimitive f v =>
    "field " ++ f.className ++ "." ++ f.name ++ " accessed on non-reference " ++ v.text
  | resultNotLocal m => "result of " ++ m.text ++ " must be assigned to a local"
  | noReceiver kind m => kind.title ++ " call to " ++ m.text ++ " without a receiver"
  | tableSize low high n =>
    "table switch " ++ toString low ++ "..=" ++ toString high ++ " has " ++ toString n ++ " targets"
  | lookupSize values targets =>
    "lookup switch has " ++ toString values ++ " values and " ++ toString targets ++ " targets"
  | operatorOnSort op s => op.title ++ " on " ++ s.text
  | operatorBetween op l r => op.title ++ " between " ++ l.text ++ " and " ++ r.text
  | negationOfSort s => "negation of " ++ s.text
  | negationOfReference v => "negation of reference " ++ v.text
  | callOutsideAssignment m => "call to " ++ m.text ++ " outside an assignment"
  | noConversion a b => "cannot convert " ++ a.text ++ " to " ++ b.text
  | arrayOperand s => "array operand of sort " ++ s.text
  | noStorage v ty => "cannot store " ++ v.text ++ " into a location of type " ++ ty.text
  | noCommonType a b => "cannot merge " ++ a.text ++ " with " ++ b.text
  | branchSorts a b => "ite branches of sorts " ++ a.text ++ " and " ++ b.text
  | conditionSort s => "ite condition of sort " ++ s.text
  | notCondition v =>
    "expected a boolean condition, got " ++ v.term.text ++ " of type " ++ v.ty.text
  | noBody m => "no body for " ++ m.text
  | unknownInstance n => "unknown call instance for " ++ n.text
  | otherMethod call owner given =>
    "call#" ++ toString call ++ " belongs to " ++ owner.text ++ ", not " ++ given.text
  | noInstruction m i => m.text ++ " has no instruction " ++ InstrId.text i
  | pruning m e =>
    "pruning " ++ m.text ++ " failed: " ++ e.message fun i => "InstrId(" ++ toString i ++ ")"
  | noSuchCallSite i m => "call site " ++ InstrId.text i ++ " is not an instruction of " ++ m.text
  | offTaintPath n => n.text ++ " is not on the taint path"
  | noReturnSite n => "no call site recorded for " ++ n.text
  | callerWithoutKeys m => "no key instructions in calling method " ++ m.text
  | differentEnds a b => "paths end at different nodes: " ++ a.text ++ " and " ++ b.text
  | overflow => "attempt to add with overflow"
  | solver reason => reason

def message (f : Fault) : String := f.kind.heading ++ f.detail

end Fault
end SinkReach
