import Mathlib.Algebra.Group.Nat.Defs
import SinkReach.Proofs.Term.Denotation

/-!
Sorts of values and sorting of terms. An operation accepts operands of some sorts only; a term is well
sorted if all its operations do, its literals are in range, and the sort of every node is admissible.
-/
namespace SinkReach

namespace TermSort

/-- Whether all bit vectors have between 1 and 64 bits. -/
def supported : TermSort → Bool
  | bitVec w => decide (1 ≤ w ∧ w ≤ 64)
  | array i e => i.supported && e.supported
  | bool | float _ => true

/-- Whether the sort is supported and its floats can be computed with. -/
def valued : TermSort → Bool
  | bitVec w => decide (1 ≤ w ∧ w ≤ 64)
  | float f => f.precision?.isSome
  | array i e => i.valued && e.valued
  | bool => true

end TermSort

mutual

/-- Whether a value is one of a sort. -/
def Value.hasSort : Value → TermSort → Bool
  | .bool _, .bool => true
  | .bitVec bits w, .bitVec w' => w == w' && decide (bits < 2 ^ w)
  | .float p bits, .float f => p.format == f && decide (bits < 2 ^ f.width)
  | .array a, .array i e => a.hasSorts i e
  | _, _ => false

/-- Whether the default and the updates of an array are of its index and element sorts. -/
def ArrayValue.hasSorts : ArrayValue → TermSort → TermSort → Bool
  | .const d, _, e => d.hasSort e
  | .store a k v, i, e => a.hasSorts i e && k.hasSort i && v.hasSort e

end

namespace Value

attribute [local simp] hasSort

theorem bool_of_hasSort {v : Value} (h : v.hasSort .bool = true) : ∃ b, v = .bool b := by
  cases v with
  | bool b => exact ⟨b, rfl⟩
  | bitVec | float | array => simp at h

theorem bitVec_of_hasSort {v : Value} {w : Nat} (h : v.hasSort (.bitVec w) = true) :
    ∃ bits, v = .bitVec bits w ∧ bits < 2 ^ w := by
  cases v with
  | bitVec bits w' =>
    simp only [hasSort, Bool.and_eq_true, beq_iff_eq, decide_eq_true_eq] at h
    exact ⟨bits, by rw [h.1], h.1 ▸ h.2⟩
  | bool | float | array => simp at h

theorem float_of_hasSort {v : Value} {f : FloatFormat} (h : v.hasSort (.float f) = true) :
    ∃ p bits, v = .float p bits ∧ p.format = f ∧ bits < 2 ^ p.format.width := by
  cases v with
  | float p bits =>
    simp only [hasSort, Bool.and_eq_true, beq_iff_eq, decide_eq_true_eq] at h
    exact ⟨p, bits, rfl, h.1, h.1 ▸ h.2⟩
  | bool | bitVec | array => simp at h

theorem array_of_hasSort {v : Value} {i e : TermSort} (h : v.hasSort (.array i e) = true) :
    ∃ a, v = .array a ∧ a.hasSorts i e = true := by
  cases v with
  | array a => exact ⟨a, rfl, by simpa using h⟩
  | bool | bitVec | float => simp at h

theorem hasSort_bitVec {bits w : Nat} (h : bits < 2 ^ w) : (bitVec bits w).hasSort (.bitVec w) = true := by
  simp [h]

theorem hasSort_float {p : Precision} {bits : Nat} (h : bits < 2 ^ p.format.width) :
    (float p bits).hasSort (.float p.format) = true := by
  simp [h]

end Value

/-- Every constant of the terms is bound to a value of its sort. -/
def Assignment.WellSorted (env : Assignment) (ts : List Term) : Prop :=
  ∀ x ∈ Term.varsAll ts, ∃ v, env.get? x.1 = some v ∧ v.hasSort x.2

namespace Term

/-- Whether a literal is a pattern of its sort. -/
def Atom.inRange : Atom → Bool
  | bool _ | var _ _ => true
  | bitVec bits w => decide (bits < 2 ^ w)
  | float bits f => decide (bits < 2 ^ f.width)

def UnaryOp.accepts (op : UnaryOp) (s : TermSort) : Bool :=
  match op with
  | not => s == .bool
  | bits _ | signExtend _ | zeroExtend _ | bvToFp _ => s.width?.isSome
  | extract high low => s.width?.any fun w => low ≤ high && high < w
  | fpNeg | fpIsNaN | fpToFp _ | fpToSbv _ => s.format?.isSome

def BinaryOp.accepts (op : BinaryOp) (s t : TermSort) : Bool :=
  match op with
  | xor => s == .bool && t == .bool
  | eq => s == t
  | bits _ | compare _ => s.width?.isSome && s == t
  | fp _ | fpCompare _ => s.format?.isSome && s == t
  | select => s == .array t (s.element?.getD .bool)

def TernaryOp.accepts (op : TernaryOp) (s t u : TermSort) : Bool :=
  match op with
  | ite => s == .bool && t == u
  | store => s == .array t u

/-- Sort of the result for an operand of a sort. -/
def UnaryOp.result (op : UnaryOp) (s : TermSort) : TermSort :=
  match op with
  | not | fpIsNaN => .bool
  | bits _ | fpNeg => s
  | signExtend extra | zeroExtend extra => .bitVec (s.width?.getD 0 + extra)
  | extract high low => .bitVec (high - low + 1)
  | fpToFp f | bvToFp f => .float f
  | fpToSbv w => .bitVec w

/-- Sort of the result for a first operand of a sort. -/
def BinaryOp.result (op : BinaryOp) (s : TermSort) : TermSort :=
  match op with
  | xor | eq | compare _ | fpCompare _ => .bool
  | bits _ | fp _ => s
  | select => s.element?.getD .bool

theorem sort_unary (l : Label) (op : UnaryOp) (a : Term) : (unary l op a).sort = op.result a.sort := by
  cases op <;> rfl

theorem sort_binary (l : Label) (op : BinaryOp) (a b : Term) :
    (binary l op a b).sort = op.result a.sort := by
  cases op <;> rfl

theorem sort_ite (l : Label) (c a b : Term) : (ternary l .ite c a b).sort = a.sort := rfl

theorem sort_store (l : Label) (a i e : Term) : (ternary l .store a i e).sort = a.sort := rfl

mutual

/-- Whether every operation accepts its operands, literals being in range and sorts admissible. -/
def wellSorted (admissible : TermSort → Bool) : Term → Bool
  | t@(leaf _ a) => admissible t.sort && a.inRange
  | t@(unary _ op a) => admissible t.sort && op.accepts a.sort && a.wellSorted admissible
  | t@(binary _ op a b) =>
    admissible t.sort && op.accepts a.sort b.sort && a.wellSorted admissible &&
      b.wellSorted admissible
  | t@(ternary _ op a b c) =>
    admissible t.sort && op.accepts a.sort b.sort c.sort && a.wellSorted admissible &&
      b.wellSorted admissible && c.wellSorted admissible
  | junction _ _ items => wellSortedBools admissible items

/-- Whether all terms are well sorted and boolean. -/
def wellSortedBools (admissible : TermSort → Bool) : List Term → Bool
  | [] => true
  | t :: ts => t.sort == .bool && t.wellSorted admissible && wellSortedBools admissible ts

end

theorem wellSortedBools_iff {admissible : TermSort → Bool} {ts : List Term} :
    wellSortedBools admissible ts = true ↔
      ∀ t ∈ ts, t.sort = .bool ∧ t.wellSorted admissible = true := by
  induction ts with
  | nil => simp [wellSortedBools]
  | cons t ts ih => simp [wellSortedBools, ih]

/-- The sort of a term is admissible. -/
theorem admissible_sort {admissible : TermSort → Bool} (bool : admissible .bool = true) {t : Term}
    (h : t.wellSorted admissible = true) : admissible t.sort = true := by
  cases t with
  | leaf l a | unary l op a | binary l op a b | ternary l op a b c =>
    simp only [wellSorted, Bool.and_eq_true] at h
    simp only [h]
  | junction l op items => exact bool

/-- The sorts of the constants of a term are admissible. -/
theorem admissible_of_mem_vars {admissible : TermSort → Bool} {t : Term}
    (h : t.wellSorted admissible = true) : ∀ x ∈ t.vars, admissible x.2 = true := by
  induction t with
  | leaf l a =>
    cases a with
    | bool | bitVec | float => simp [vars]
    | var name s =>
      simp only [wellSorted, Bool.and_eq_true] at h
      intro x hx
      cases List.mem_singleton.1 hx
      exact h.1
  | unary l op a iha =>
    simp only [wellSorted, Bool.and_eq_true] at h
    exact iha h.2
  | binary l op a b iha ihb =>
    simp only [wellSorted, Bool.and_eq_true] at h
    intro x hx
    rcases List.mem_append.1 hx with hx | hx
    · exact iha h.1.2 x hx
    · exact ihb h.2 x hx
  | ternary l op a b c iha ihb ihc =>
    simp only [wellSorted, Bool.and_eq_true] at h
    intro x hx
    rcases List.mem_append.1 hx with hx | hx
    · rcases List.mem_append.1 hx with hx | hx
      · exact iha h.1.1.2 x hx
      · exact ihb h.1.2 x hx
    · exact ihc h.2 x hx
  | junction l op items ih =>
    intro x hx
    obtain ⟨t, ht, hx⟩ := mem_varsAll.1 hx
    exact ih t ht (wellSortedBools_iff.1 h t ht).2 x hx

end Term
end SinkReach
