import SinkReach.Proofs.Stateful
import SinkReach.Proofs.Term.Folding
import SinkReach.Symbolic.Operation

/-!
Names of the constants in terms. Constructors, conversions and operators only rearrange the constants of
their operands, and where a conversion or an operator has no result, that is due to the values at hand.
-/
namespace SinkReach

/-- An operation is not defined on the values at hand, or one that it needs is missing. -/
def Fault.OfValues (f : Fault) : Prop :=
  f.kind = .resolution ∨ f.kind = .unsupported ∨ f.kind = .sortMismatch

/-- It has a result with a property, or fails because of the values at hand. -/
def Computes {α : Type} (x : Except Fault α) (P : α → Prop) : Prop :=
  match x with
  | .ok a => P a
  | .error f => f.OfValues

namespace Computes

variable {α β : Type} {x : Except Fault α} {P Q : α → Prop}

theorem resolution {f : Fault} (h : f.kind = .resolution) : Computes (.error f) P := .inl h

theorem unsupported {f : Fault} (h : f.kind = .unsupported) : Computes (.error f) P := .inr (.inl h)

theorem sortMismatch {f : Fault} (h : f.kind = .sortMismatch) : Computes (.error f) P := .inr (.inr h)

theorem bind {f : α → Except Fault β} {R : β → Prop} (hx : Computes x P) (hf : ∀ a, P a → Computes (f a) R) :
    Computes (x >>= f) R := by
  cases x with
  | ok a => exact hf a hx
  | error e => exact hx

end Computes

/-- All constants that occur in the term have names of a kind. -/
def Term.Over (N : String → Prop) (t : Term) : Prop := ∀ x ∈ t.vars, N x.1

variable {N N' : String → Prop} {l : Label}

namespace Term.Over

variable {a b c t : Term} {ts : List Term}

theorem mono (h : t.Over N) (imp : ∀ name, N name → N' name) : t.Over N' := fun x mem => imp _ (h x mem)

theorem ofBool {b : Bool} : (Term.ofBool l b).Over N := fun _ mem => nomatch mem

theorem ofInt {n : Int} {w : Nat} : (Term.ofInt l n w).Over N := fun _ mem => nomatch mem

theorem ofFloatBits {bits : Nat} {f : FloatFormat} : (Term.ofFloatBits l bits f).Over N := fun _ mem => nomatch mem

theorem ofDouble {bits : Nat} {f : FloatFormat} : (Term.ofDouble l bits f).Over N := by
  unfold Term.ofDouble
  split
  · exact ofFloatBits
  · exact ofFloatBits

theorem var {name : String} {s : TermSort} (h : N name) : (Term.var l name s).Over N :=
  fun _ mem => (List.mem_singleton.1 mem).symm ▸ h

theorem unary {op : UnaryOp} (ha : a.Over N) : (Term.unary l op a).Over N := ha

theorem binary {op : BinaryOp} (ha : a.Over N) (hb : b.Over N) : (Term.binary l op a b).Over N :=
  List.forall_mem_append.2 ⟨ha, hb⟩

theorem ternary {op : TernaryOp} (ha : a.Over N) (hb : b.Over N) (hc : c.Over N) :
    (Term.ternary l op a b c).Over N := List.forall_mem_append.2 ⟨List.forall_mem_append.2 ⟨ha, hb⟩, hc⟩

theorem junction {op : Junction} (h : ∀ t ∈ ts, t.Over N) : (Term.junction l op ts).Over N := by
  intro x mem
  obtain ⟨t, listed, hx⟩ := mem_varsAll.1 mem
  exact h t listed x hx

/-- The literal of a value has no constants. -/
theorem of_toLiteral? {v : Value} (h : v.toLiteral? l = some t) : t.Over N := by
  cases v with
  | bool | bitVec | float =>
    cases h
    exact fun _ mem => nomatch mem
  | array => cases h

theorem fold (h : t.Over N) : (Term.fold t).Over N := by
  unfold Term.fold
  split
  · exact h
  · split
    next v _ =>
      cases literal : v.toLiteral? t.label with
      | none => exact h
      | some u => exact of_toLiteral? literal
    next => exact h

theorem not (h : a.Over N) : (Term.not l a).Over N := by
  unfold Term.not
  split
  · exact h
  · exact fold h.unary

theorem join {op : Junction} (h : ∀ t ∈ ts, t.Over N) : (Term.join l op ts).Over N := by
  have kept {us : List Term} (found : essential? op ts = some us) : ∀ t ∈ us, t.Over N :=
    fun t mem => h t ((essential?_sublist found).subset mem)
  unfold Term.join
  split
  · exact ofBool
  · exact ofBool
  next t found => exact kept found t List.mem_cons_self
  next us _ found => exact junction (kept found)

theorem and (ha : a.Over N) (hb : b.Over N) : (Term.and l a b).Over N := join (by simp [ha, hb])

theorem or (ha : a.Over N) (hb : b.Over N) : (Term.or l a b).Over N := join (by simp [ha, hb])

theorem eq (ha : a.Over N) (hb : b.Over N) : (Term.eq l a b).Over N := by
  unfold Term.eq
  split
  · exact ofBool
  · exact fold (ha.binary hb)

theorem ite (hc : c.Over N) (ha : a.Over N) (hb : b.Over N) : (Term.ite l c a b).Over N := by
  unfold Term.ite
  split
  · exact ha
  · exact hb
  · split
    · exact ha
    · split
      · exact hc
      · exact hc.not
      · exact hc.ternary ha hb

/-- Operators that change nothing are left out. -/
theorem unary_unless {op : UnaryOp} {p : Prop} [Decidable p] (h : a.Over N) :
    (if p then a else Term.fold (Term.unary l op a)).Over N := by
  split
  · exact h
  · exact fold h.unary

theorem resize {source target : Nat} {signed : Bool} (h : a.Over N) :
    (Term.resize l a source target signed).Over N := by
  unfold Term.resize
  split
  · exact h
  · split
    · split
      · exact unary_unless h
      · exact unary_unless h
    · exact unary_unless h

theorem clampToInt {f : FloatFormat} {w : Nat} (h : a.Over N) : (Term.clampToInt l a f w).Over N := by
  unfold Term.clampToInt
  exact ite (fold h.unary) ofInt (ite (fold (h.binary ofDouble)) ofInt
    (ite (fold (h.binary ofDouble)) ofInt (fold h.unary)))

theorem floatToBits {f : FloatFormat} {w : Nat} (h : a.Over N) : (Term.floatToBits l a f w).Over N := by
  unfold Term.floatToBits
  split
  · exact h.clampToInt
  · exact h.clampToInt.resize

theorem nonzero {w : Nat} (h : a.Over N) : (Term.nonzero l a w).Over N := (h.eq ofInt).not

theorem boolToBits {w : Nat} (h : a.Over N) : (Term.boolToBits l a w).Over N := h.ite ofInt ofInt

theorem convert {s : TermSort} (h : a.Over N) : Computes (Term.convert l a s) (·.Over N) := by
  unfold Term.convert Term.fpToFp
  split
  · exact h
  · split
    · split
      · exact h
      · exact fold h.unary
    · exact fold h.unary
    · exact h.floatToBits
    · exact h.nonzero
    · exact h.boolToBits
    · exact fold h.boolToBits.unary
    · exact h.floatToBits.nonzero
    · exact h.resize
    · exact .sortMismatch rfl

theorem cast {source target : Ty} (h : a.Over N) : Computes (Term.cast l a source target) (·.Over N) := by
  unfold Term.cast
  split
  · exact h
  · split
    · split
      · exact h.convert
      · exact h.resize.convert
    · exact h.resize.convert
    · exact h.convert

theorem conditional (hc : c.Over N) (ha : a.Over N) (hb : b.Over N) :
    Computes (Term.conditional l c a b) (·.Over N) := by
  unfold Term.conditional
  split
  · exact .sortMismatch rfl
  · split
    · exact .sortMismatch rfl
    · exact hc.ite ha hb

theorem align (ha : a.Over N) (hb : b.Over N) :
    Computes (Term.align l a b) fun r => r.1.Over N ∧ r.2.Over N := by
  have rank (s : TermSort) : Computes (sortRank s) fun _ => True := by
    cases s with
    | bool | bitVec | float => exact trivial
    | array => exact .sortMismatch rfl
  have higher (s u : TermSort) : Computes (higherSort s u) fun _ => True :=
    (rank s).bind fun _ _ => (rank u).bind fun _ _ => trivial
  refine (higher _ _).bind fun s _ => (higher _ _).bind fun target _ => ?_
  exact ha.convert.bind fun _ ha' => hb.convert.bind fun _ hb' => ⟨ha', hb'⟩

end Term.Over

namespace Operator

variable {a b : Term}

open Term (Over)

theorem over_threeWay (ha : a.Over N) (hb : b.Over N) : (threeWay l a b).Over N :=
  ha.ite (hb.ite .ofInt .ofInt) .ofInt

theorem over_onBits {w : Nat} (ha : a.Over N) (hb : b.Over N) (op : Operator) : (onBits l a b w op).Over N := by
  have distance {l : Label} : (distance l b w).Over N := .fold (hb.binary .ofInt)
  cases op with
  | add | sub | mul | div | rem | and | or | xor | lt | le | gt | ge => exact .fold (ha.binary hb)
  | shl | shr | ushr => exact .fold (ha.binary distance)
  | eq => exact ha.eq hb
  | ne => exact (ha.eq hb).not
  | cmp | cmpl | cmpg => exact over_threeWay (.fold (ha.binary hb)) (ha.eq hb)

theorem over_floatThreeWay (ha : a.Over N) (hb : b.Over N) (n : Option Int) :
    (floatThreeWay l a b n).Over N := by
  have ordered : (threeWay l (Term.fpCompare (l + 5) .le a b) (Term.fpCompare (l + 6) .eq a b)).Over N :=
    over_threeWay (.fold (ha.binary hb)) (.fold (ha.binary hb))
  cases n with
  | none => exact ordered
  | some n => exact (Over.or (.fold ha.unary) (.fold hb.unary)).ite .ofInt ordered

theorem computes_onFloats (ha : a.Over N) (hb : b.Over N) (op : Operator) :
    Computes (onFloats l a b op) (·.Over N) := by
  cases op with
  | add | sub | mul | div | rem | eq | lt | le | gt | ge => exact Over.fold (ha.binary hb)
  | ne => exact (Over.fold (ha.binary hb)).not
  | cmp | cmpl | cmpg => exact over_floatThreeWay ha hb _
  | and | or | xor | shl | shr | ushr => exact .unsupported rfl

theorem computes_onBools (ha : a.Over N) (hb : b.Over N) (op : Operator) :
    Computes (onBools l a b op) (·.Over N) := by
  cases op with
  | eq => exact ha.eq hb
  | ne | xor => exact Over.fold (ha.binary hb)
  | and => exact ha.and hb
  | or => exact ha.or hb
  | _ => exact .unsupported rfl

/-- An operator has no constants but those of its operands. -/
theorem computes_apply (ha : a.Over N) (hb : b.Over N) (op : Operator) :
    Computes (op.apply l a b) (·.Over N) := by
  refine (ha.align hb).bind fun r hr => ?_
  obtain ⟨a', b'⟩ := r
  dsimp only
  split
  · exact over_onBits hr.1 hr.2 op
  · exact computes_onFloats hr.1 hr.2 op
  · exact computes_onBools hr.1 hr.2 op
  · exact .unsupported rfl

theorem computes_negate (ha : a.Over N) : Computes (negate l a) (·.Over N) := by
  unfold negate
  split
  · exact Over.fold ha.unary
  · exact Over.fold ha.unary
  · exact ha.not
  · exact .unsupported rfl

end Operator
end SinkReach
