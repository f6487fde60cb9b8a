import SinkReach.Proofs.Symbolic.Arithmetic

/-!
Data of the machine that a program runs on, and what its operators make of them. It has no truth values but the
numbers zero and one, brings two numbers to the wider of their types, and compares addresses for equality only.
Every value of a type that has values stands for a datum, as its constants are assigned.
-/
namespace SinkReach

/-- What the machine finds in a place: a number of an integer type, a float, or the address of an object. -/
inductive Datum where
  | integer (k : IntegerTy) (n : Int)
  | float (p : Precision) (bits : Nat)
  | object (address : Int)

namespace Precision

def ty : Precision → Ty
  | single => .float
  | double => .double

def wider : Precision → Precision → Precision
  | single, single => single
  | _, _ => double

/-- Minus one, zero or one, and a number of its own where a datum is NaN. -/
def threeWay (p : Precision) (unordered : Int) (x y : Nat) : Int :=
  if p.isNaN x || p.isNaN y then unordered else if p.lt x y then -1 else if p.eq x y then 0 else 1

theorem sort_ty (p : Precision) : p.ty.sort = .float p.format := by cases p <;> rfl

theorem ty_ne_char (p : Precision) : p.ty ≠ .char := by cases p <;> decide

theorem ty_ne_boolean (p : Precision) : p.ty ≠ .boolean := by cases p <;> decide

theorem format_injective {p q : Precision} (same : p.format = q.format) : p = q := by
  cases p <;> cases q <;> first | rfl | cases same

theorem convert_self (p : Precision) (x : Nat) : p.convert p x = x := if_pos rfl

theorem precision?_format (p : Precision) : p.format.precision? = some p := by cases p <;> rfl

theorem valued_format (p : Precision) : (TermSort.float p.format).valued = true := by cases p <;> rfl

end Precision

theorem IntegerTy.ty_ne_boolean (k : IntegerTy) : k.ty ≠ .boolean := by cases k <;> decide

/-- A number as a float of a precision, rounded to nearest. -/
def Datum.toFloat? (p : Precision) : Datum → Option Nat
  | integer _ n => some (p.ofInt n)
  | float q x => some (q.convert p x)
  | object _ => none

/-- Whether a result is true, or a number other than zero. -/
def Value.truth? : Value → Option Bool
  | bool b => some b
  | bitVec x _ => some (x ≠ 0)
  | _ => none

namespace Operator

/-- Comparisons that have a truth value. -/
def compares : Operator → Bool
  | eq | ne | lt | le | gt | ge => true
  | _ => false

def equates : Operator → Bool
  | eq | ne => true
  | _ => false

/-- Result on two integers. Nothing is divided by zero, and shifts are by an `int` at most. -/
def integers? (op : Operator) (s : IntegerTy) (m : Int) (t : IntegerTy) (n : Int) : Option Value :=
  if op.isDivision ∧ n = 0 ∨ op.isShift ∧ t = .long then none else some (op.onNumbers (s.promoted t).width m n)

/-- Result of a comparison of two floats; nothing but their difference is equal to NaN. -/
def floats? (op : Operator) (p : Precision) (x y : Nat) : Option Value :=
  match op with
  | eq => some (.bool (p.eq x y))
  | ne => some (.bool (!p.eq x y))
  | lt => some (.bool (p.lt x y))
  | le => some (.bool (p.le x y))
  | gt => some (.bool (p.lt y x))
  | ge => some (.bool (p.le y x))
  | cmpl => some (.ofInt (p.threeWay (-1) x y) 32)
  | cmpg => some (.ofInt (p.threeWay 1 x y) 32)
  | _ => none

def addresses? (op : Operator) (m n : Int) : Option Value :=
  match op with
  | eq => some (.bool (m = n))
  | ne => some (.bool (m ≠ n))
  | _ => none

/-- Result on two floats of the precision that the data are brought to. -/
def asFloats? (op : Operator) (p : Precision) (d e : Datum) : Option Value := do
  op.floats? p (← d.toFloat? p) (← e.toFloat? p)

/-- Result of the machine's operation on two data. -/
def data? (op : Operator) (d e : Datum) : Option Value :=
  match d, e with
  | .integer s m, .integer t n => op.integers? s m t n
  | .object m, .object n => op.addresses? m n
  | .float p _, .float q _ => op.asFloats? (p.wider q) d e
  | .float p _, _ | _, .float p _ => op.asFloats? p d e
  | _, _ => none

theorem integers?_eq_some {op : Operator} {s t : IntegerTy} {m n : Int} {v : Value}
    (h : op.integers? s m t n = some v) :
    v = op.onNumbers (s.promoted t).width m n ∧ (op.isDivision = true → n ≠ 0) := by
  unfold integers? at h
  split at h
  next => cases h
  next allowed =>
    cases h
    exact ⟨rfl, fun division zero => allowed (.inl ⟨division, zero⟩)⟩

/-- Addresses are compared as numbers of 32 bits are. -/
theorem data?_of_objects {op : Operator} {m n : Int} {v : Value} (h : op.data? (.object m) (.object n) = some v) :
    op.data? (.integer .int m) (.integer .int n) = some v := by
  cases op with
  | eq | ne => exact h
  | _ => cases h

/-- Any two data that are no addresses can be compared, and addresses for equality. -/
theorem exists_compared {op : Operator} (compares : op.compares = true) {d e : Datum}
    (kinds : (∀ n, d ≠ .object n) ∧ (∀ n, e ≠ .object n) ∨ op.equates = true ∧ ∃ m n, d = .object m ∧ e = .object n) :
    ∃ r, (op.data? d e).bind Value.truth? = some r := by
  rcases kinds with ⟨left, right⟩ | ⟨equates, m, n, rfl, rfl⟩
  · cases d with
    | object n => exact absurd rfl (left n)
    | integer | float =>
      cases e with
      | object n => exact absurd rfl (right n)
      | integer | float => cases op <;> first | exact ⟨_, rfl⟩ | cases compares
  · cases op <;> first | exact ⟨_, rfl⟩ | cases equates

/-- Result on two truth values. -/
def truths? (op : Operator) (p q : Bool) : Option Bool :=
  match op with
  | eq => some (p == q)
  | ne | xor => some (p != q)
  | and => some (p && q)
  | or => some (p || q)
  | _ => none

end Operator

namespace Value

theorem hasSort_ofVector {w : Nat} (x : BitVec w) : (ofVector x).hasSort (.bitVec w) = true := hasSort_bitVec x.isLt

theorem hasSort_ofInt {w : Nat} {n : Int} (fits : w ≤ 64) : (ofInt n w).hasSort (.bitVec w) = true := by
  rw [ofInt_eq_ofVector fits]
  exact hasSort_ofVector _

end Value

/-- A value that evaluates to a datum; a boolean one to zero or one. -/
inductive SymValue.Shows (σ : Assignment) : SymValue → Datum → Prop
  | truth {t : Term} {b : Bool} : t.eval σ = .ok (.bool b) →
    Shows σ (.primitive .boolean t) (.integer .int b.toInt)
  | integer {k : IntegerTy} {t : Term} {n : Int} : k.Shows σ t n → Shows σ (.primitive k.ty t) (.integer k n)
  | float {p : Precision} {t : Term} {x : Nat} : t.eval σ = .ok (.float p x) →
    Shows σ (.primitive p.ty t) (.float p x)
  | object {ty : Ty} {t : Term} {n : Int} : IntegerTy.int.Shows σ t n → Shows σ (.reference ty t) (.object n)

theorem Assignment.WellSorted.exists_eval {σ : Assignment} {ts : List Term} (h : σ.WellSorted ts) {t : Term}
    {s : TermSort} (mem : t ∈ ts) (sorted : t.OfSort s) : ∃ v, t.eval σ = .ok v ∧ v.hasSort s = true := by
  obtain ⟨v, value, sort⟩ := Term.denote_hasSort σ.completed_wellSorted sorted.2
  rw [← h.completed mem, ← Term.value?_eq_denote, Term.value?_eq_some] at value
  exact ⟨v, value, sorted.1 ▸ sort⟩

namespace SymValue

variable {σ : Assignment} {v : SymValue} {ty : Ty} {d : Datum}

/-- The datum of a reference is the address of an object. -/
theorem Shows.object_iff (h : v.Shows σ d) (typed : v.HasType ty) : ty.isReference = true ↔ ∃ n, d = .object n := by
  cases h with
  | object => exact iff_of_true typed.of_reference.2.1 ⟨_, rfl⟩
  | truth | integer | float =>
    refine iff_of_false ?_ fun ⟨_, same⟩ => nomatch same
    rw [typed.of_primitive.2.1]
    exact Bool.false_ne_true

/-- Under an assignment of its constants every value of a type that has values evaluates to a datum. -/
theorem exists_shows {ts : List Term} (bound : σ.WellSorted ts) (mem : v.term ∈ ts) (typed : v.HasType ty)
    (other : ty ≠ .void) : ∃ d, v.Shows σ d := by
  have number {t : Term} (k : IntegerTy) (mem : t ∈ ts) (sorted : t.OfSort k.ty.sort) : ∃ n, k.Shows σ t n :=
    IntegerTy.exists_shows sorted fun x hx => bound x (Term.mem_varsAll.2 ⟨t, mem, by simpa [Term.varsAll] using hx⟩)
  have integer {t : Term} (k : IntegerTy) (mem : t ∈ ts) (sorted : t.OfSort k.ty.sort) :
      ∃ d, (primitive k.ty t).Shows σ d := by
    obtain ⟨n, shows⟩ := number k mem sorted
    exact ⟨_, .integer shows⟩
  have float {t : Term} (p : Precision) (mem : t ∈ ts) (sorted : t.OfSort p.ty.sort) :
      ∃ d, (primitive p.ty t).Shows σ d := by
    obtain ⟨v, value, sort⟩ := bound.exists_eval mem (p.sort_ty ▸ sorted)
    obtain ⟨q, x, rfl, same, -⟩ := Value.float_of_hasSort sort
    obtain rfl := Precision.format_injective same
    exact ⟨_, .float value⟩
  cases v with
  | reference source t =>
    obtain ⟨n, shows⟩ := number .int mem typed.of_reference.2.2
    exact ⟨_, .object shows⟩
  | primitive source t =>
    obtain ⟨rfl, kind, sorted⟩ := typed.of_primitive
    cases source with
    | boolean =>
      obtain ⟨v, value, sort⟩ := bound.exists_eval mem sorted
      obtain ⟨b, rfl⟩ := Value.bool_of_hasSort sort
      exact ⟨_, .truth value⟩
    | byte => exact integer .byte mem sorted
    | short => exact integer .short mem sorted
    | char => exact integer .char mem sorted
    | int => exact integer .int mem sorted
    | long => exact integer .long mem sorted
    | float => exact float .single mem sorted
    | double => exact float .double mem sorted
    | void => exact absurd rfl other
    | null | ref | array => cases kind

end SymValue

/-- A truth value that is true stands beside a number that is none: no truth value is two. -/
def SymValue.Blurs (v w : SymValue) (d e : Datum) : Prop :=
  v.ty = .boolean ∧ d = .integer .int 1 ∧ w.ty ≠ .boolean ∧ ∃ k n, e = .integer k n ∧ n ≠ 0 ∧ n ≠ 1

end SinkReach
