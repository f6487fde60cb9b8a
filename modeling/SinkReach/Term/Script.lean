import Std.Data.HashMap
import SinkReach.Term.Dag
import SinkReach.Text

/-!
SMT-LIB scripts of constraints. A node with operands that is used more than once gets a definition of
its own, so a script is as long as the shared term, not as its unfolding. Main statement: putting the
definitions back in place gives the unfolded constraints.
-/
namespace SinkReach

/-- S-expressions, in which a shared definition is referred to by its number. -/
inductive SExpr where
  | atom (token : String)
  | shared (index : Nat)
  | list (items : List SExpr)

namespace SExpr

instance : Inhabited SExpr := ⟨.atom ""⟩

mutual

def text : SExpr → String
  | atom token => token
  | shared k => "_t" ++ toString k
  | list items => "(" ++ textAll items ++ ")"

def textAll : List SExpr → String
  | [] => ""
  | [s] => s.text
  | s :: ss => s.text ++ " " ++ textAll ss

end

/-- Indexed identifier `(_ name n ...)`. -/
def indexed (name : String) (indices : List Nat) : SExpr :=
  list (atom "_" :: atom name :: indices.map fun n => atom (toString n))

end SExpr

/-- Characters of simple symbols besides letters and digits. -/
def symbolMarks : List Char := "~!@$%^&*_-+=<>.?/".toList

def isSimpleSymbol (name : String) : Bool :=
  let cs := name.toList
  !cs.isEmpty && !(cs.head?.any Char.isDigit) &&
    cs.all fun c => c.isAlphanum || symbolMarks.contains c

/-- Symbol of a constant; a name that is not a simple symbol stands between bars, in which bars and
backslashes become underscores. -/
def symbol (name : String) : String :=
  if isSimpleSymbol name then name
  else "|" ++ String.ofList (name.toList.map fun c => if c = '|' ∨ c = '\\' then '_' else c) ++ "|"

namespace Term

open SExpr (atom indexed)

def Atom.sexpr : Atom → SExpr
  | bool b => atom (if b then "true" else "false")
  | bitVec bits width => indexed ("bv" ++ toString bits) [width]
  | float bits f =>
    .list [indexed "to_fp" [f.exponent, f.significand], indexed ("bv" ++ toString bits) [f.width]]
  | var name _ => atom (symbol name)

/-- Operator of an application, with its rounding mode where it has one. -/
def UnaryOp.head : UnaryOp → List SExpr
  | signExtend n => [indexed "sign_extend" [n]]
  | zeroExtend n => [indexed "zero_extend" [n]]
  | extract high low => [indexed "extract" [high, low]]
  | fpToFp f | bvToFp f => [indexed "to_fp" [f.exponent, f.significand], atom "RNE"]
  | fpToSbv w => [indexed "fp.to_sbv" [w], atom "RTZ"]
  | op => [atom op.name]

@[inherit_doc UnaryOp.head]
def BinaryOp.head : BinaryOp → List SExpr
  | fp .rem => [atom "fp.rem"]
  | fp op => [atom (BinaryOp.fp op).name, atom "RNE"]
  | fpCompare .le => [atom "fp.leq"]
  | fpCompare .ge => [atom "fp.geq"]
  | op => [atom op.name]

/-- Numbers of the definitions made so far, by label. -/
abbrev Names := Std.HashMap Label Nat

mutual

/-- The node's definition if it has one, otherwise its application. -/
def refer (names : Names) : Term → SExpr
  | leaf _ a => a.sexpr
  | unary l op a =>
    match names[l]? with
    | some k => .shared k
    | none => .list (op.head ++ [a.refer names])
  | binary l op a b =>
    match names[l]? with
    | some k => .shared k
    | none => .list (op.head ++ [a.refer names, b.refer names])
  | ternary l op a b c =>
    match names[l]? with
    | some k => .shared k
    | none => .list [atom op.name, a.refer names, b.refer names, c.refer names]
  | junction l op items =>
    match names[l]? with
    | some k => .shared k
    | none => .list (atom op.name :: referAll names items)

def referAll (names : Names) : List Term → List SExpr
  | [] => []
  | t :: ts => t.refer names :: referAll names ts

end

/-- How often each label is used as a root or as an operand of a visited node. -/
def uses (roots visited : List Term) : Std.HashMap Label Nat :=
  let count (m : Std.HashMap Label Nat) (t : Term) := m.insert t.label (m.getD t.label 0 + 1)
  visited.foldl (fun m t => t.children.foldl count m) (roots.foldl count {})

end Term

/-- Declared constants, shared definitions and asserted constraints. -/
structure Script where
  declarations : List (String × TermSort)
  definitions : List (TermSort × SExpr)
  asserts : List SExpr

namespace Script

/-- Names gathered and definitions written, the latest first. -/
structure Draft where
  names : Term.Names := {}
  definitions : List (TermSort × SExpr) := []

/-- Gives a node a definition if it has operands and several uses. -/
def Draft.define (uses : Std.HashMap Label Nat) (d : Draft) (t : Term) : Draft :=
  if t.children.isEmpty || uses.getD t.label 0 ≤ 1 then d
  else
    { names := d.names.insert t.label d.definitions.length
      definitions := (t.sort, t.refer d.names) :: d.definitions }

def ofConstraints (constraints : List Term) : Script :=
  let visited := Term.nodes constraints
  let draft := visited.foldl (Draft.define (Term.uses constraints visited)) {}
  { declarations := (Term.freeVars constraints).entries
    definitions := draft.definitions.reverse
    asserts := constraints.map (Term.refer draft.names) }

def declaration (name : String) (sort : TermSort) : String :=
  "(declare-const " ++ symbol name ++ " " ++ sort.text ++ ")\n"

def definition (index : Nat) (sort : TermSort) (body : SExpr) : String :=
  "(define-fun " ++ (SExpr.shared index).text ++ " () " ++ sort.text ++ " " ++ body.text ++ ")\n"

def assertion (body : SExpr) : String := "(assert " ++ body.text ++ ")\n"

def text (s : Script) : String :=
  String.join (s.declarations.map fun (name, sort) => declaration name sort) ++
    String.join (s.definitions.zipIdx.map fun ((sort, body), k) => definition k sort body) ++
    String.join (s.asserts.map assertion)

end Script
end SinkReach
