import Mathlib.Data.List.Forall2
import SinkReach.Proofs.Program.Discipline
import SinkReach.Proofs.Symbolic.IntegralTerms
import SinkReach.Proofs.Symbolic.State
import SinkReach.Proofs.Symbolic.Unknown
import SinkReach.Step.Effect

/-!
Values of the types that a switch takes are bit vectors. That is true of a machine which reads and
writes only fields of one type for each class and name: where the types of a field differ, a truth value
that was stored is read back as a number.
-/
namespace SinkReach

/-- Types of the keys of switches. -/
def Ty.isIntegral : Ty → Bool
  | byte | short | char | int => true
  | _ => false

theorem Ty.width_of_isIntegral {ty : Ty} (h : ty.isIntegral = true) : ∃ w, ty.sort = .bitVec w := by
  cases ty with
  | byte | short | char | int => exact ⟨_, rfl⟩
  | boolean | long | float | double | void | null | ref | array => cases h

theorem Ty.isPrimitive_of_isIntegral {ty : Ty} (h : ty.isIntegral = true) : ty.isPrimitive = true := by
  cases ty with
  | byte | short | char | int => rfl
  | boolean | long | float | double | void | null | ref | array => cases h

/-- An integral value is a bit vector. -/
def SymValue.HasBits (v : SymValue) : Prop :=
  ∀ ty t, v = .primitive ty t → ty.isIntegral = true → t.IsBits

theorem SymValue.hasBits_reference {ty : Ty} {a : Term} : (SymValue.reference ty a).HasBits :=
  fun _ _ h => nomatch h

theorem SymValue.hasBits_primitive {ty : Ty} {t : Term} (h : ty.isIntegral = true → t.IsBits) :
    (SymValue.primitive ty t).HasBits := by
  rintro _ _ ⟨⟩ integral
  exact h integral

/-- A value of a location's type, a bit vector if that is integral. -/
def SymValue.Fits (v : SymValue) (ty : Ty) : Prop := v.ty = ty ∧ v.HasBits

theorem Machine.Unknown.fits {M M' : Machine} {c c' : Context} {ty : Ty} {v : SymValue}
    (h : Unknown M c ty v M' c') : v.Fits ty := by
  cases h with
  | void => exact ⟨rfl, SymValue.hasBits_primitive fun h => nomatch h⟩
  | null => exact ⟨rfl, SymValue.hasBits_reference⟩
  | object _ => exact ⟨rfl, SymValue.hasBits_reference⟩
  | primitive _ => exact ⟨rfl, SymValue.hasBits_primitive Ty.width_of_isIntegral⟩

/-- Fields that agree on the types of a class and name. -/
def Field.Agree (F : Field → Prop) : Prop :=
  ∀ f g, F f → F g → f.className = g.className → f.name = g.name → f.ty = g.ty

/-- The array of a field has bit vectors for elements if the field is integral. -/
def Field.Covers (f : Field) (a : Term) : Prop :=
  f.ty.isIntegral = true → ∃ i w, a.sort = .array i (.bitVec w)

/-- Locals have values of their types, and arrays are those of fields that the program names. -/
structure Memory.HasBits (F : Field → Prop) (m : Memory) : Prop where
  locals : ∀ id v, m.local? id = some v → v.Fits id.ty
  fields : ∀ e ∈ m.fields.entries, ∃ f, F f ∧ e.1 = .ofField f ∧ f.Covers e.2

/-- Effects on locals and fields that keep to their types. -/
inductive Update.HasBits (F : Field → Prop) : Update → Prop
  | constraint (t : Term) : HasBits F (.constraint t)
  | allocate (n : Nat) : HasBits F (.allocate n)
  | bind {id : LocalId} {v : SymValue} : v.Fits id.ty → HasBits F (.bind id v)
  | store {f : Field} (i e : Term) : F f → HasBits F (.store (.ofField f) i e)

variable {F : Field → Prop} {m : Memory}

namespace Memory

theorem HasBits.empty : Memory.empty.HasBits F :=
  ⟨fun _ _ h => (nomatch h), fun _ h => nomatch h⟩

/-- The array of a field that the program names, stored into or not. -/
theorem HasBits.array (h : m.HasBits F) (agree : Field.Agree F) {f : Field} (named : F f) (l : Label) :
    f.Covers (m.array l (.ofField f)) := by
  unfold Memory.array
  cases found : m.fields.get? (.ofField f) with
  | none =>
    intro integral
    obtain ⟨w, sort⟩ := Ty.width_of_isIntegral integral
    refine ⟨Address.sort, w, ?_⟩
    show TermSort.array Address.sort f.ty.sort = _
    rw [sort]
  | some a =>
    obtain ⟨k, mem, same⟩ := Table.exists_of_lookup found
    obtain ⟨g, named', rfl, covers⟩ := h.fields _ mem
    simp only [BEq.beq, Bool.and_eq_true, decide_eq_true_eq] at same
    intro integral
    exact covers (agree g f named' named same.1 same.2 ▸ integral)

theorem HasBits.bind (h : m.HasBits F) {id : LocalId} {v : SymValue} (fits : v.Fits id.ty) :
    (m.bind id v).HasBits F := by
  refine ⟨fun id' v' found => ?_, h.fields⟩
  rw [local?_bind] at found
  split at found
  next same =>
    cases same
    cases found
    exact fits
  next => exact h.locals id' v' found

theorem HasBits.bindAll (h : m.HasBits F) {bindings : List (LocalId × SymValue)}
    (fit : ∀ b ∈ bindings, b.2.Fits b.1.ty) : (m.bindAll bindings).HasBits F := by
  induction bindings generalizing m with
  | nil => exact h
  | cons b bs ih =>
    rw [bindAll_cons]
    exact ih (h.bind (fit b List.mem_cons_self)) fun b' mem => fit b' (List.mem_cons_of_mem _ mem)

theorem HasBits.store (h : m.HasBits F) (agree : Field.Agree F) {f : Field} (named : F f) (l : Label)
    (i e : Term) : (m.store l (.ofField f) i e).HasBits F := by
  refine ⟨h.locals, fun entry mem => ?_⟩
  rcases Table.mem_insert mem with rfl | mem
  · exact ⟨f, named, rfl, h.array agree named (l + 1)⟩
  · exact h.fields entry mem

theorem HasBits.withoutLocalsOf (h : m.HasBits F) (method : Method) :
    (m.withoutLocalsOf method).HasBits F := by
  refine ⟨fun id v found => ?_, h.fields⟩
  rw [local?_withoutLocalsOf] at found
  split at found
  · cases found
  · exact h.locals id v found

end Memory

theorem SymState.updateAll_hasBits (agree : Field.Agree F) {us : List Update}
    (updates : ∀ u ∈ us, u.HasBits F) {s : SymState} (h : s.memory.HasBits F) (l : Label) :
    (s.updateAll l us).memory.HasBits F := by
  induction us generalizing s l with
  | nil => exact h
  | cons u us ih =>
    refine ih (fun u' mem => updates u' (List.mem_cons_of_mem _ mem)) ?_ (l + 2)
    cases updates u List.mem_cons_self with
    | constraint | allocate => exact h
    | bind fits => exact h.bind fits
    | store i e named => exact h.store agree named l i e

/-- The base of the machine and what it has gathered keep to the types. -/
structure Machine.HasBits (F : Field → Prop) (M : Machine) : Prop where
  base : M.base.memory.HasBits F
  pending : ∀ u ∈ M.pending, u.HasBits F

theorem Machine.HasBits.start {s : SymState} (h : s.memory.HasBits F) : (Machine.start s).HasBits F :=
  ⟨h, fun _ h => nomatch h⟩

theorem Machine.HasBits.gathered {M : Machine} (h : M.HasBits F) {u : Update} (hu : u.HasBits F) :
    (M.gathered u).HasBits F := by
  refine ⟨h.base, fun u' mem => ?_⟩
  rcases List.mem_append.1 mem with mem | mem
  · exact h.pending u' mem
  · cases List.mem_singleton.1 mem
    exact hu

/-- Every run that succeeds keeps to the types, and its result has a property. -/
def Run.Keeps {α : Type} (F : Field → Prop) (x : Run α) (P : α → Prop) : Prop :=
  ∀ ⦃M c a M' c'⦄, M.HasBits F → x.Yields M c a M' c' → M'.HasBits F ∧ P a

namespace Run.Keeps

variable {α β : Type} {P Q : α → Prop} {x : Run α}

theorem pure {a : α} (h : P a) : Keeps F (Pure.pure a : Run α) P := by
  intro M c b M' c' bits run
  obtain ⟨rfl, rfl, rfl⟩ := Run.yields_pure.1 run
  exact ⟨bits, h⟩

theorem bind {f : α → Run β} {R : β → Prop} (hx : Keeps F x P) (hf : ∀ a, P a → Keeps F (f a) R) :
    Keeps F (x >>= f) R := by
  intro M c b M' c' bits run
  obtain ⟨a, M₁, c₁, first, rest⟩ := Run.yields_bind.1 run
  obtain ⟨bits₁, ha⟩ := hx bits first
  exact hf a ha bits₁ rest

theorem mono (hx : Keeps F x P) (imp : ∀ a, P a → Q a) : Keeps F x Q := by
  intro M c a M' c' bits run
  obtain ⟨bits', ha⟩ := hx bits run
  exact ⟨bits', imp a ha⟩

theorem throw (e : Fault) : Keeps F (MonadExcept.throw e : Run α) P :=
  fun _ _ _ _ _ _ run => absurd run Run.not_yields_throw

theorem lift {y : Except Fault α} (h : ∀ a, y = .ok a → P a) : Keeps F (liftExcept y : Run α) P := by
  intro M c a M' c' bits run
  obtain ⟨ok, rfl, rfl⟩ := Run.yields_lift.1 run
  exact ⟨bits, h a ok⟩

theorem freshLabel : Keeps F (SinkReach.freshLabel : Run Label) fun _ => True := by
  intro M c l M' c' bits run
  obtain ⟨-, rfl, -⟩ := Run.yields_freshLabel.1 run
  exact ⟨bits, trivial⟩

theorem context {f : Context → α × Context} (h : ∀ c, P (f c).1) :
    Keeps F (modifyGetThe Context f : Run α) P := by
  intro M c a M' c' bits run
  obtain ⟨rfl, rfl, -⟩ := Run.yields_context.1 run
  exact ⟨bits, h c⟩

theorem get : Keeps F (getThe Machine : Run Machine) (Machine.HasBits F) := by
  intro M c a M' c' bits run
  obtain ⟨rfl, rfl, -⟩ := Run.yields_get.1 run
  exact ⟨bits, bits⟩

theorem reserve (n : Nat) :
    Keeps F (modifyThe Machine fun m => { m with nextAddress := n } : Run Unit) fun _ => True := by
  intro M c a M' c' bits run
  obtain ⟨rfl, -⟩ := Run.yields_modify.1 run
  exact ⟨⟨bits.base, bits.pending⟩, trivial⟩

theorem emit {u : Update} (h : u.HasBits F) : Keeps F (Machine.emit u) fun _ => True := by
  intro M c a M' c' bits run
  obtain ⟨rfl, -⟩ := Run.yields_modify.1 run
  exact ⟨bits.gathered h, trivial⟩

theorem mapM {R : α → β → Prop} {f : α → Run β} {as : List α} (h : ∀ a ∈ as, Keeps F (f a) (R a)) :
    Keeps F (as.mapM f) (List.Forall₂ R as) := by
  induction as with
  | nil =>
    rw [List.mapM_nil]
    exact pure .nil
  | cons a as ih =>
    rw [List.mapM_cons]
    refine bind (h a List.mem_cons_self) fun b hb => ?_
    refine bind (ih fun a' mem => h a' (List.mem_cons_of_mem _ mem)) fun bs hbs => ?_
    exact pure (.cons hb hbs)

theorem mapM_forall {R : β → Prop} {f : α → Run β} {as : List α} (h : ∀ a ∈ as, Keeps F (f a) R) :
    Keeps F (as.mapM f) fun bs => ∀ b ∈ bs, R b := by
  refine (mapM (R := fun _ => R) h).mono fun bs all => ?_
  clear h
  induction all with
  | nil => exact fun _ h => nomatch h
  | cons hb _ ih => exact List.forall_mem_cons.2 ⟨hb, ih⟩

end Run.Keeps

namespace Machine

open Run (Keeps)

theorem keeps_unknown (ty : Ty) : Keeps F (unknown ty) fun v => v.Fits ty := by
  intro M c v M' c' bits run
  have made := yields_unknown run
  refine ⟨?_, made.fits⟩
  cases made with
  | void | null | primitive => exact bits
  | object => exact bits.gathered (.constraint _)

theorem keeps_declare (id : LocalId) : Keeps F (declare id) fun _ => True := by
  refine Keeps.bind (keeps_unknown id.ty) fun v fits => ?_
  exact Keeps.bind (Keeps.emit (.bind fits)) fun _ _ => Keeps.pure trivial

theorem keeps_allocate (ty : Ty) : Keeps F (allocate ty) SymValue.HasBits := by
  refine Keeps.bind Keeps.freshLabel fun l _ => ?_
  refine Keeps.bind Keeps.get fun M _ => ?_
  refine Keeps.bind (Keeps.reserve _) fun _ _ => ?_
  refine Keeps.bind (Keeps.emit (.allocate _)) fun _ _ => ?_
  refine Keeps.bind (P := fun _ => True) (Keeps.context fun _ => trivial) fun _ _ => ?_
  refine Keeps.bind (Keeps.emit (.constraint _)) fun _ _ => ?_
  exact Keeps.pure SymValue.hasBits_reference

theorem keeps_constant (k : Constant) : Keeps F (constant k) fun v => v.Fits k.ty := by
  refine Keeps.bind Keeps.freshLabel fun l _ => ?_
  cases k with
  | int n => exact Keeps.pure ⟨rfl, SymValue.hasBits_primitive fun _ => Term.isBits_ofInt ..⟩
  | long | float | double => exact Keeps.pure ⟨rfl, SymValue.hasBits_primitive fun h => nomatch h⟩
  | null => exact Keeps.pure ⟨rfl, SymValue.hasBits_reference⟩
  | string | classLiteral =>
    refine Keeps.bind (P := fun _ => True) (Keeps.context fun _ => trivial) fun _ _ => ?_
    refine Keeps.bind (P := fun _ => True) (Keeps.context fun _ => trivial) fun _ _ => ?_
    refine Keeps.bind (Keeps.emit (.constraint _)) fun _ _ => ?_
    exact Keeps.pure ⟨rfl, SymValue.hasBits_reference⟩

theorem pendingLocal?_fits {id : LocalId} {us : List Update} (h : ∀ u ∈ us, u.HasBits F) {v : SymValue}
    (found : pendingLocal? id us = some v) : v.Fits id.ty := by
  induction us with
  | nil => cases found
  | cons u us ih =>
    unfold pendingLocal? at found
    split at found
    next later =>
      cases found
      exact ih (fun u' mem => h u' (List.mem_cons_of_mem _ mem)) later
    next =>
      split at found
      next =>
        split at found
        next same =>
          cases found
          cases h _ List.mem_cons_self with
          | bind fits => exact same ▸ fits
        next => cases found
      next => cases found

theorem keeps_local? (id : LocalId) : Keeps F (local? id) fun o => ∀ v, o = some v → v.Fits id.ty := by
  refine Keeps.bind Keeps.get fun M bits => Keeps.pure fun v found => ?_
  cases pending : pendingLocal? id M.pending with
  | some u =>
    rw [pending] at found
    cases found
    exact pendingLocal?_fits bits.pending pending
  | none =>
    rw [pending] at found
    exact bits.base.locals id v found

theorem keeps_read (agree : Field.Agree F) {f : Field} (named : F f) (address : Term) :
    Keeps F (read address f) SymValue.HasBits := by
  refine Keeps.bind Keeps.freshLabel fun l _ => ?_
  refine Keeps.bind Keeps.get fun M bits => Keeps.pure ?_
  unfold SymValue.wrap
  split
  · exact SymValue.hasBits_reference
  · refine SymValue.hasBits_primitive fun integral => ?_
    obtain ⟨i, w, sort⟩ := bits.base.array agree named (l + 1) integral
    refine ⟨w, ?_⟩
    rw [Term.select, Term.sort_binary, sort]
    rfl

theorem keeps_write {f : Field} (named : F f) (address : Term) (v : SymValue) :
    Keeps F (write address f v) fun _ => True := by
  refine Keeps.bind Keeps.freshLabel fun l _ => ?_
  refine Keeps.bind (P := fun _ => True) (Keeps.lift fun _ _ => trivial) fun e _ => ?_
  exact Keeps.emit (.store address e named)

/-- The result of an operator is brought to its type. -/
theorem operate_hasBits {l : Label} {op : Operator} {v w r : SymValue} {ty : Ty}
    (h : operate l op v w ty = .ok r) : r.HasBits := by
  rw [operate_eq] at h
  obtain ⟨t, -, h⟩ := except_bind_ok.1 h
  obtain ⟨u, conversion, h⟩ := except_bind_ok.1 h
  cases h
  unfold fitted at conversion
  refine SymValue.hasBits_primitive fun integral => ?_
  obtain ⟨width, sort⟩ := Ty.width_of_isIntegral integral
  split at conversion
  · rw [sort] at conversion
    exact Term.convert_isBits conversion
  next same =>
    cases conversion
    have sorts : t.sort = ty.sort :=
      Decidable.of_not_not fun other => same ⟨Ty.isPrimitive_of_isIntegral integral, other⟩
    exact ⟨width, sorts.trans sort⟩

theorem keeps_binary (op : Operator) (v w : SymValue) (ty : Ty) :
    Keeps F (binary op v w ty) SymValue.HasBits := by
  refine Keeps.bind Keeps.freshLabel fun l _ => ?_
  exact Keeps.lift fun _ => operate_hasBits

theorem keeps_negate {v : SymValue} (h : v.HasBits) : Keeps F (negate v) SymValue.HasBits := by
  refine Keeps.bind Keeps.freshLabel fun l _ => ?_
  cases v with
  | primitive ty t =>
    refine Keeps.bind (P := fun u => ty.isIntegral = true → u.IsBits) ?_ fun u hu =>
      Keeps.pure (SymValue.hasBits_primitive hu)
    exact Keeps.lift fun u negated integral => Term.negate_isBits (h ty t rfl integral) negated
  | reference => exact Keeps.throw _

theorem keeps_cast {v : SymValue} (h : v.HasBits) (ty : Ty) : Keeps F (cast v ty) fun u => u.Fits ty := by
  unfold cast
  split
  next same => exact Keeps.pure ⟨same, h⟩
  next other =>
    cases v with
    | primitive source t =>
      dsimp only
      split
      · refine Keeps.bind Keeps.freshLabel fun l _ => ?_
        refine Keeps.bind (P := fun u => ty.isIntegral = true → u.IsBits) ?_ fun u hu =>
          Keeps.pure ⟨rfl, SymValue.hasBits_primitive hu⟩
        refine Keeps.lift fun u converted integral => ?_
        obtain ⟨w, sort⟩ := Ty.width_of_isIntegral integral
        exact Term.cast_isBits other sort converted
      · exact keeps_unknown ty
    | reference => exact keeps_unknown ty

theorem keeps_declaredAs {v : SymValue} (h : v.HasBits) (ty : Ty) :
    Keeps F (declaredAs v ty) fun u => u.Fits ty := by
  cases v with
  | reference source address =>
    simp only [declaredAs]
    split
    · exact Keeps.pure ⟨rfl, SymValue.hasBits_reference⟩
    · exact keeps_cast h ty
  | primitive => exact keeps_cast h ty

end Machine
end SinkReach
