import SinkReach.Proofs.Symbolic.Names
import SinkReach.Proofs.Term.Sharing

/-!
Constants of scripts, and the names of arrays among them. The symbols of two constants denote the same one exactly
if their names differ in bars and backslashes alone, and the symbol of an array tells class and field up to these.
No script escapes that, and a script without such names declares every constant apart.
-/
namespace SinkReach

open SExpr (tokensAll)

section Barred

theorem barred_append (s t : String) : barred (s ++ t) = barred s ++ barred t := by
  rw [← String.toList_inj]
  simp only [toList_barred, String.toList_append, List.map_append]

theorem Barless.toString (n : Nat) : Barless (toString n) := by
  intro c mem
  have digit := isDigit_toString n c mem
  constructor <;> rintro rfl <;> cases digit

theorem utf8Size_barredChar (c : Char) : (barredChar c).utf8Size = c.utf8Size := by
  unfold barredChar
  split
  next special => rcases special with rfl | rfl <;> rfl
  next => rfl

/-- Bars, backslashes and underscores take one byte each. -/
theorem utf8ByteSize_barred (name : String) : (barred name).utf8ByteSize = name.utf8ByteSize := by
  have bytes (cs : List Char) :
      (String.ofList (cs.map barredChar)).utf8ByteSize = (String.ofList cs).utf8ByteSize := by
    induction cs with
    | nil => rfl
    | cons c cs ih =>
      rw [List.map_cons, String.ofList_cons, String.ofList_cons, String.utf8ByteSize_append,
        String.utf8ByteSize_append, String.utf8ByteSize_singleton, String.utf8ByteSize_singleton, ih,
        utf8Size_barredChar]
  rw [barred, bytes, String.ofList_toList]

end Barred

namespace Chunk

/-- Class and field as they are printed between bars. -/
def barred (c : Chunk) : Chunk where
  className := SinkReach.barred c.className
  fieldName := SinkReach.barred c.fieldName
  ty := c.ty

/-- The length in front of the class stays right between bars. -/
theorem barred_id (c : Chunk) : SinkReach.barred c.id = c.barred.id := by
  have colon : SinkReach.barred ":" = ":" := rfl
  have dot : SinkReach.barred "." = "." := rfl
  simp only [id, barred, barred_append, colon, dot, barred_of_barless (.toString _), utf8ByteSize_barred]

/-- The symbols of two arrays denote the same constant exactly if class and field are printed alike. -/
theorem denoted_id_inj {c d : Chunk} : denoted (symbol c.id) = denoted (symbol d.id) ↔
    SinkReach.barred c.className = SinkReach.barred d.className ∧
      SinkReach.barred c.fieldName = SinkReach.barred d.fieldName := by
  rw [denoted_symbol_inj, barred_id, barred_id]
  constructor
  · exact id_injective
  · rintro ⟨classes, fields⟩
    simp only [id, barred, classes, fields]

end Chunk

namespace Script

/-- Names of the declared constants, in order. -/
def constants (s : Script) : List String := s.declarations.map (·.1)

/-- The constants of a script are those of its constraints. -/
theorem mem_constants {constraints : List Term} {name : String} :
    name ∈ (ofConstraints constraints).constants ↔ ∃ sort, (name, sort) ∈ Term.varsAll constraints := by
  have entries (sort : TermSort) := (Term.freeVars_distinct constraints).mem_entries (k := name) (a := sort)
  constructor
  · intro mem
    obtain ⟨⟨_, sort⟩, here, rfl⟩ := List.mem_map.1 mem
    exact ⟨sort, Term.mem_varsAll_of_freeVars ((entries sort).1 here)⟩
  · rintro ⟨_, mem⟩
    obtain ⟨sort, found⟩ := Term.freeVars_of_mem_varsAll mem
    exact List.mem_map.2 ⟨(name, sort), (entries sort).2 found, rfl⟩

/-- How a script declares the constants of its constraints: its text reads as the tokens of the commands; these
declare the constants by their symbols, each constant once; and the symbols of two of them denote the same
exactly if their names differ in bars and backslashes alone, whether between bars or not. -/
structure Declares (constraints : List Term) (s : Script) : Prop where
  reads : readTokens s.text = tokensAll s.commands
  free : ∀ name, name ∈ s.constants ↔ ∃ sort, (name, sort) ∈ Term.varsAll constraints
  once : s.constants.Nodup
  symbols : s.declaredSymbols = s.constants.map symbol
  same : ∀ a ∈ s.constants, ∀ b ∈ s.constants, denoted (symbol a) = denoted (symbol b) ↔ barred a = barred b
  apart : ∀ a ∈ s.constants, ∀ b ∈ s.constants, Barless a → Barless b → a ≠ b →
    denoted (symbol a) ≠ denoted (symbol b)
  allApart : (s.declaredSymbols.map denoted).Nodup ↔
    ∀ a ∈ s.constants, ∀ b ∈ s.constants, barred a = barred b → a = b
  arrays : ∀ c d : Chunk, denoted (symbol c.id) = denoted (symbol d.id) ↔
    barred c.className = barred d.className ∧ barred c.fieldName = barred d.fieldName

/-- Every script declares its constants so, whatever the names. -/
theorem ofConstraints_declares (constraints : List Term) : Declares constraints (ofConstraints constraints) := by
  have once : (ofConstraints constraints).constants.Nodup := Term.freeVars_distinct constraints
  have symbols : (ofConstraints constraints).declaredSymbols = (ofConstraints constraints).constants.map symbol := by
    rw [declaredSymbols_eq, constants, List.map_map]
    rfl
  refine
    { reads := readTokens_ofConstraints constraints
      free := fun name => mem_constants
      once := once
      symbols := symbols
      same := fun a _ b _ => denoted_symbol_inj
      apart := fun a _ b _ => denoted_symbol_ne
      allApart := ?_
      arrays := fun c d => Chunk.denoted_id_inj }
  have names : (ofConstraints constraints).declaredSymbols.map denoted =
      (ofConstraints constraints).constants.map barred := by
    rw [symbols, List.map_map]
    exact List.map_congr_left fun name _ => denoted_symbol name
  rw [names]
  exact List.nodup_map_iff_inj_on once

section Clash

/-- A field whose name ends in a bar. -/
def barField : Chunk := ⟨"A", "f|", .boolean⟩

/-- A field of the same class whose name ends in an underscore. -/
def underscoreField : Chunk := ⟨"A", "f_", .boolean⟩

/-- The one field is set at an object, the other one is not. -/
def setApart : List Term :=
  [.binary 3 .select (barField.initial 0) (.leaf 2 (.bitVec 1 32)),
   .unary 5 .not (.binary 4 .select (underscoreField.initial 1) (.leaf 2 (.bitVec 1 32)))]

/-- The arrays of the two fields have different names, and under the assignment both constraints are true; but
the script declares both arrays as one constant, of which it asserts a contradiction. So different constants need
not have different symbols. -/
theorem declares_twice :
    let env : Assignment := .ofList
      [(barField.id, .array (.const (.bool true))), (underscoreField.id, .array (.const (.bool false)))]
    (∀ t ∈ setApart, t.Holds env) ∧ barField.id ≠ underscoreField.id ∧
      (ofConstraints setApart).constants = [underscoreField.id, barField.id] ∧
      symbol barField.id = symbol underscoreField.id ∧
      (ofConstraints setApart).text =
        "(declare-const |1:A.f_| (Array (_ BitVec 32) Bool))\n" ++
        "(declare-const |1:A.f_| (Array (_ BitVec 32) Bool))\n" ++
        "(assert (select |1:A.f_| (_ bv1 32)))\n" ++
        "(assert (not (select |1:A.f_| (_ bv1 32))))\n" ∧
      ¬ ∀ constraints : List Term, ∀ a ∈ (ofConstraints constraints).constants,
        ∀ b ∈ (ofConstraints constraints).constants, a ≠ b → denoted (symbol a) ≠ denoted (symbol b) := by
  have script : ofConstraints setApart =
      { declarations := [(underscoreField.id, underscoreField.sort), (barField.id, barField.sort)]
        definitions := []
        asserts :=
          let cell (array : Chunk) : SExpr := .list [.atom "select", .atom (symbol array.id), .indexed "bv1" [32]]
          [cell barField, .list [.atom "not", cell underscoreField]] } := by
    simp [ofConstraints, setApart, Chunk.initial, Term.var, Term.nodes, Term.visitAll, Term.visit, Term.children,
      Term.label, Term.alike, Term.uses, Std.HashMap.getD_insert, Draft.define, Term.refer, Term.freeVars]
    exact ⟨by decide +kernel, rfl, rfl⟩
  have constants : (ofConstraints setApart).constants = [underscoreField.id, barField.id] := by
    rw [script]
    rfl
  have other : barField.id ≠ underscoreField.id := by decide
  have same : symbol barField.id = symbol underscoreField.id := by decide +kernel
  refine ⟨?_, other, constants, same, ?_, fun apart => ?_⟩
  · refine List.forall_mem_cons.2 ⟨?_, List.forall_mem_singleton.2 ?_⟩ <;> exact Term.holds_iff_eval.2 rfl
  · rw [script]
    decide +kernel
  · have bar : barField.id ∈ (ofConstraints setApart).constants := by simp [constants]
    have underscore : underscoreField.id ∈ (ofConstraints setApart).constants := by simp [constants]
    exact apart setApart _ bar _ underscore other (congrArg denoted same)

end Clash

end Script
end SinkReach
