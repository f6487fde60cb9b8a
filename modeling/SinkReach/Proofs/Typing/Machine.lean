import SinkReach.Proofs.Simulation.Sides
import SinkReach.Proofs.Symbolic.Contract
import SinkReach.Proofs.Symbolic.Integral
import SinkReach.Proofs.Typing.Sorts

/-!
Well-typed states and machines. Locals have values of their declared types, the arrays of fields have
elements of the fields' types, and constraints are conditions; every operation of the machine keeps it so.
-/
namespace SinkReach

namespace SymValue.HasType

variable {s ty : Ty} {t : Term} {v : SymValue}

theorem primitive (kind : ty.isReference = false) (h : t.OfSort ty.sort) :
    (SymValue.primitive ty t).HasType ty where
  wrapped := by simp [wrap, kind, term]
  sorted := h.2
  sort := h.1

theorem reference (kind : ty.isReference = true) (h : t.OfSort Address.sort) :
    (SymValue.reference ty t).HasType ty where
  wrapped := by simp [wrap, kind, term]
  sorted := h.2
  sort := h.1.trans (Ty.sort_of_reference kind).symm

theorem ofSort (h : v.HasType ty) : v.term.OfSort ty.sort := ⟨h.sort, h.sorted⟩

theorem self (h : v.HasType ty) : v.HasType v.ty := h.ty_eq.symm ▸ h

theorem wrap (h : t.OfSort ty.sort) : (SymValue.wrap ty t).HasType ty := by
  unfold SymValue.wrap
  split
  next kind => exact reference kind (Ty.sort_of_reference kind ▸ h)
  next kind => exact primitive (eq_false_of_ne_true kind) h

/-- A primitive value is of a type that is none of references. -/
theorem of_primitive (h : (SymValue.primitive s t).HasType ty) :
    s = ty ∧ ty.isReference = false ∧ t.OfSort ty.sort := by
  refine ⟨h.ty_eq, ?_, h.ofSort⟩
  rw [Bool.eq_false_iff]
  intro kind
  have wrapped := h.wrapped
  rw [SymValue.wrap, if_pos kind] at wrapped
  cases wrapped

/-- A reference is of a type of references. -/
theorem of_reference (h : (SymValue.reference s t).HasType ty) :
    s = ty ∧ ty.isReference = true ∧ t.OfSort Address.sort := by
  have kind : ty.isReference = true := by
    by_contra kind
    have wrapped := h.wrapped
    rw [SymValue.wrap, if_neg kind] at wrapped
    cases wrapped
  exact ⟨h.ty_eq, kind, Ty.sort_of_reference kind ▸ h.ofSort⟩

theorem null (l : Label) : (SymValue.null l).HasType .null := reference rfl (.ofInt 0 (by decide) (by decide))

theorem void (l : Label) : (SymValue.void l).HasType .void := primitive rfl (.ofInt 0 (by decide) (by decide))

end SymValue.HasType

/-- Locals have values of their types, and arrays are those of fields that the program names, with elements
of the fields' types. -/
structure Memory.WellTyped (F : Field → Prop) (m : Memory) : Prop where
  locals : ∀ id v, m.local? id = some v → v.HasType id.ty
  fields : ∀ e ∈ m.fields.entries, ∃ f, F f ∧ e.1 = .ofField f ∧ e.2.OfSort (.array Address.sort f.ty.sort)

/-- The memory is well-typed, and the constraints are conditions. -/
structure SymState.WellTyped (F : Field → Prop) (s : SymState) : Prop where
  memory : s.memory.WellTyped F
  constraints : ∀ t ∈ s.constraints, t.OfSort .bool

/-- Effects that keep to the types of locals and fields. -/
inductive Update.WellTyped (F : Field → Prop) : Update → Prop
  | constraint {t : Term} : t.OfSort .bool → WellTyped F (.constraint t)
  | allocate (n : Nat) : WellTyped F (.allocate n)
  | bind {id : LocalId} {v : SymValue} : v.HasType id.ty → WellTyped F (.bind id v)
  | store {f : Field} {i e : Term} : F f → i.OfSort Address.sort → e.OfSort f.ty.sort →
    WellTyped F (.store (.ofField f) i e)

variable {F : Field → Prop} {E : Fault → Prop} {m : Memory}

namespace Memory.WellTyped

theorem empty : Memory.empty.WellTyped F :=
  ⟨fun _ _ found => (nomatch found), fun _ mem => nomatch mem⟩

/-- The array of a field, stored into or not, is that of a field of its class and name. -/
theorem exists_array (h : m.WellTyped F) (f : Field) (l : Label) :
    ∃ g : Field, (F f → F g) ∧ g.className = f.className ∧ g.name = f.name ∧
      (m.array l (.ofField f)).OfSort (.array Address.sort g.ty.sort) := by
  unfold Memory.array
  cases found : m.fields.get? (.ofField f) with
  | none =>
    refine ⟨f, id, rfl, rfl, .var (s := .array Address.sort f.ty.sort) _ ?_⟩
    rw [TermSort.valued, f.ty.sort_valued]
    rfl
  | some a =>
    obtain ⟨k, mem, same⟩ := Table.exists_of_lookup found
    obtain ⟨g, named, rfl, sorted⟩ := h.fields _ mem
    simp only [BEq.beq, Bool.and_eq_true, decide_eq_true_eq] at same
    exact ⟨g, fun _ => named, same.1, same.2, sorted⟩

/-- The array of a field that the program names has elements of the field's type. -/
theorem array (h : m.WellTyped F) (agree : Field.Agree F) {f : Field} (named : F f) (l : Label) :
    (m.array l (.ofField f)).OfSort (.array Address.sort f.ty.sort) := by
  obtain ⟨g, named', className, name, sorted⟩ := h.exists_array f l
  rw [← agree g f (named' named) named className name]
  exact sorted

theorem bind (h : m.WellTyped F) {id : LocalId} {v : SymValue} (typed : v.HasType id.ty) :
    (m.bind id v).WellTyped F := by
  refine ⟨fun id' v' found => ?_, h.fields⟩
  rw [local?_bind] at found
  split at found
  next same =>
    cases same
    cases found
    exact typed
  next => exact h.locals id' v' found

theorem bindAll (h : m.WellTyped F) {bindings : List (LocalId × SymValue)}
    (typed : ∀ b ∈ bindings, b.2.HasType b.1.ty) : (m.bindAll bindings).WellTyped F := by
  induction bindings generalizing m with
  | nil => exact h
  | cons b bs ih =>
    rw [bindAll_cons]
    exact ih (h.bind (typed b List.mem_cons_self)) fun b' mem => typed b' (List.mem_cons_of_mem _ mem)

theorem store (h : m.WellTyped F) (agree : Field.Agree F) {f : Field} (named : F f) {i e : Term}
    (index : i.OfSort Address.sort) (element : e.OfSort f.ty.sort) (l : Label) :
    (m.store l (.ofField f) i e).WellTyped F := by
  refine ⟨h.locals, fun entry mem => ?_⟩
  rcases Table.mem_insert mem with rfl | mem
  · exact ⟨f, named, rfl, (h.array agree named (l + 1)).store index element⟩
  · exact h.fields entry mem

theorem withoutLocalsOf (h : m.WellTyped F) (method : Method) : (m.withoutLocalsOf method).WellTyped F := by
  refine ⟨fun id v found => ?_, h.fields⟩
  rw [local?_withoutLocalsOf] at found
  split at found
  · cases found
  · exact h.locals id v found

end Memory.WellTyped

namespace SymState.WellTyped

variable {s : SymState}

theorem initial : SymState.initial.WellTyped F := ⟨.empty, fun _ mem => nomatch mem⟩

theorem withMemory (h : s.WellTyped F) (typed : m.WellTyped F) : (s.withMemory m).WellTyped F :=
  ⟨typed, h.constraints⟩

theorem assume (h : s.WellTyped F) {t : Term} (condition : t.OfSort .bool) : (s.assume t).WellTyped F :=
  ⟨h.memory, List.forall_mem_append.2 ⟨h.constraints, List.forall_mem_singleton.2 condition⟩⟩

theorem updateAll (h : s.WellTyped F) (agree : Field.Agree F) {us : List Update}
    (updates : ∀ u ∈ us, u.WellTyped F) (l : Label) : (s.updateAll l us).WellTyped F := by
  induction us generalizing s l with
  | nil => exact h
  | cons u us ih =>
    refine ih ?_ (fun u' mem => updates u' (List.mem_cons_of_mem _ mem)) (l + 2)
    cases updates u List.mem_cons_self with
    | constraint condition => exact h.assume condition
    | allocate => exact ⟨h.memory, h.constraints⟩
    | bind typed => exact h.withMemory (h.memory.bind typed)
    | store named index element => exact h.withMemory (h.memory.store agree named index element l)

end SymState.WellTyped

/-- The machine works on a well-typed memory, and what it has gathered keeps to the types. -/
structure Machine.WellTyped (F : Field → Prop) (M : Machine) : Prop where
  base : M.base.memory.WellTyped F
  pending : ∀ u ∈ M.pending, u.WellTyped F

/-- The term of the value is well-sorted, whatever the type. -/
def SymValue.IsSorted (v : SymValue) : Prop := v.term.wellSorted TermSort.valued = true

/-- Whatever the fault. -/
def Fault.Any (_ : Fault) : Prop := True

namespace Machine

open Run (Ensures)

theorem WellTyped.start {s : SymState} (h : s.WellTyped F) : (Machine.start s).WellTyped F :=
  ⟨h.memory, fun _ mem => nomatch mem⟩

theorem ensures_emit {u : Update} (h : u.WellTyped F) : Ensures (WellTyped F) E (emit u) fun _ => True :=
  .modify fun _ typed =>
    ⟨typed.base, List.forall_mem_append.2 ⟨typed.pending, List.forall_mem_singleton.2 h⟩⟩

/-- A constraint on the type of an address is assumed. -/
theorem ensures_assumeTyped {build : Registry → Term × Registry} (h : ∀ r, (build r).1.OfSort .bool) :
    Ensures (WellTyped F) E (do assume (← typed build)) fun _ => True :=
  .bind (.context fun c => h c.registry) fun _ condition => ensures_emit (.constraint condition)

theorem ensures_unknown (ty : Ty) : Ensures (WellTyped F) E (unknown ty) fun v => v.HasType ty := by
  refine .bind .freshLabel fun l _ => ?_
  have fresh (s : TermSort) (valued : s.valued = true) :
      Ensures (WellTyped F) E (freshVar l s) fun t => t.OfSort s := .context fun _ => .var _ valued
  cases ty with
  | void => exact .pure (.void l)
  | null => exact .pure (.null l)
  | ref | array =>
    refine .bind (fresh Address.sort rfl) fun address sorted => ?_
    rw [← bind_assoc]
    refine .bind (ensures_assumeTyped fun r => Registry.ofSort_typeOrNull sorted r _) fun _ _ => ?_
    exact .pure (.reference rfl sorted)
  | boolean | byte | short | char | int | long | float | double =>
    exact .bind (fresh _ rfl) fun t sorted => .pure (.primitive rfl sorted)

theorem ensures_bind {id : LocalId} {v : SymValue} (h : v.HasType id.ty) :
    Ensures (WellTyped F) E (bind id v) fun _ => True := ensures_emit (.bind h)

theorem ensures_declare (id : LocalId) : Ensures (WellTyped F) E (declare id) fun _ => True :=
  .bind (ensures_unknown id.ty) fun _ typed => .bind (ensures_bind typed) fun _ _ => .pure trivial

/-- A new object is a reference to a well-sorted address. -/
theorem ensures_allocate_reference (ty : Ty) : Ensures (WellTyped F) E (allocate ty) fun v =>
    ∃ address, v = .reference ty address ∧ address.OfSort Address.sort := by
  refine .bind .freshLabel fun l _ => .bind .get fun M _ => ?_
  refine .bind (.modify fun _ typed => ⟨typed.base, typed.pending⟩) fun _ _ => ?_
  refine .bind (ensures_emit (.allocate _)) fun _ _ => ?_
  have address : (Term.ofInt l M.nextAddress Address.width).OfSort Address.sort :=
    .ofInt _ (by decide) (by decide)
  dsimp only
  rw [← bind_assoc]
  refine .bind (ensures_assumeTyped fun r => Registry.ofSort_typeConstraint address r ty) fun _ _ => ?_
  exact .pure ⟨_, rfl, address⟩

theorem ensures_allocate {ty : Ty} (object : ty.isObject = true) :
    Ensures (WellTyped F) E (allocate ty) fun v => v.HasType ty := by
  refine (ensures_allocate_reference ty).mono fun v ⟨address, same, sorted⟩ => ?_
  exact same ▸ .reference (Ty.isReference_of_isObject object) sorted

theorem ensures_constant (k : Constant) : Ensures (WellTyped F) E (constant k) fun v => v.HasType k.ty := by
  refine .bind .freshLabel fun l _ => ?_
  cases k with
  | int n | long n => exact .pure (.primitive rfl (.ofInt n (by decide) (by decide)))
  | float bits | double bits => exact .pure (.primitive rfl (.ofFloatBits bits rfl))
  | null => exact .pure (.null l)
  | string | classLiteral =>
    have fresh : Ensures (WellTyped F) E (freshLiteral l Address.sort) fun t => t.OfSort Address.sort :=
      .context fun _ => .var _ rfl
    refine .bind fresh fun address sorted => ?_
    rw [← bind_assoc]
    refine .bind (ensures_assumeTyped fun r => Registry.ofSort_typeConstraint sorted r _) fun _ _ => ?_
    exact .pure (.reference rfl sorted)

theorem hasType_of_pendingLocal? {id : LocalId} {us : List Update} (h : ∀ u ∈ us, u.WellTyped F) {v : SymValue}
    (found : pendingLocal? id us = some v) : v.HasType id.ty := by
  induction us with
  | nil => cases found
  | cons u us ih =>
    unfold pendingLocal? at found
    split at found
    next later =>
      cases found
      exact ih (fun u' mem => h u' (List.mem_cons_of_mem _ mem)) later
    next =>
      split at found
      next =>
        split at found
        next same =>
          cases found
          cases h _ List.mem_cons_self with
          | bind typed => exact same ▸ typed
        next => cases found
      next => cases found

theorem ensures_local? (id : LocalId) :
    Ensures (WellTyped F) E (local? id) fun o => ∀ v, o = some v → v.HasType id.ty := by
  refine .bind .get fun M typed => .pure fun v found => ?_
  cases pending : pendingLocal? id M.pending with
  | some u =>
    rw [pending] at found
    cases found
    exact hasType_of_pendingLocal? typed.pending pending
  | none =>
    rw [pending] at found
    exact typed.base.locals id v found

theorem ensures_read (agree : Field.Agree F) {f : Field} (named : F f) {address : Term}
    (h : address.OfSort Address.sort) : Ensures (WellTyped F) E (read address f) fun v => v.HasType f.ty := by
  refine .bind .freshLabel fun l _ => .bind .get fun M typed => .pure (.wrap ?_)
  exact (typed.base.array agree named (l + 1)).select h

/-- Where fields do not agree on their types, what is read is still well-sorted. -/
theorem ensures_read_sorted {address : Term} (h : address.OfSort Address.sort) (f : Field) :
    Ensures (WellTyped F) E (read address f) SymValue.IsSorted := by
  refine .bind .freshLabel fun l _ => .bind .get fun M typed => .pure ?_
  obtain ⟨g, -, -, -, array⟩ := typed.base.exists_array f (l + 1)
  have selected := array.select (l := l) h
  unfold SymValue.IsSorted SymValue.wrap
  split
  · exact selected.2
  · exact selected.2

theorem ensures_addressOf {v : SymValue} {ty : Ty} (h : v.HasType ty) (f : Field) :
    Ensures (WellTyped F) Fault.Any (liftExcept (addressOf v f)) fun t => t.OfSort Address.sort := by
  refine .lift (fun address found => ?_) fun _ _ => trivial
  cases v with
  | primitive => cases found
  | reference =>
    cases found
    exact h.of_reference.2.2

theorem ensures_readField (agree : Field.Agree F) {f : Field} (named : F f) {v : SymValue} {ty : Ty}
    (h : v.HasType ty) : Ensures (WellTyped F) Fault.Any (readField v f) fun w => w.HasType f.ty :=
  .bind (ensures_addressOf h f) fun _ address => ensures_read agree named address

theorem ensures_readStatic (agree : Field.Agree F) {f : Field} (named : F f) :
    Ensures (WellTyped F) E (readStatic f) fun v => v.HasType f.ty :=
  .bind .freshLabel fun _ _ => ensures_read agree named (.ofInt 0 (by decide) (by decide))

/-- What is stored is brought to the sort of the location's type. -/
theorem coerce_ofSort {l : Label} {v : SymValue} {ty target : Ty} (h : v.HasType ty) {t : Term}
    (stored : coerce l v target = .ok t) : t.OfSort target.sort := by
  cases v with
  | primitive source a =>
    obtain ⟨rfl, -, sorted⟩ := h.of_primitive
    simp only [coerce] at stored
    split at stored
    · exact sorted.cast stored
    · cases stored
  | reference source a =>
    simp only [coerce] at stored
    split at stored
    next kind =>
      cases stored
      rw [Ty.sort_of_reference kind]
      exact h.of_reference.2.2
    next => cases stored

theorem ensures_write {f : Field} (named : F f) {address : Term} (index : address.OfSort Address.sort)
    {v : SymValue} {ty : Ty} (h : v.HasType ty) :
    Ensures (WellTyped F) Fault.Any (write address f v) fun _ => True := by
  refine .bind .freshLabel fun l _ => ?_
  refine .bind (.lift (fun _ => coerce_ofSort h) fun _ _ => trivial) fun e element => ?_
  exact ensures_emit (.store named index element)

theorem ensures_writeField {f : Field} (named : F f) {base v : SymValue} {s ty : Ty} (hb : base.HasType s)
    (h : v.HasType ty) : Ensures (WellTyped F) Fault.Any (writeField base f v) fun _ => True :=
  .bind (ensures_addressOf hb f) fun _ address => ensures_write named address h

theorem ensures_writeStatic {f : Field} (named : F f) {v : SymValue} {ty : Ty} (h : v.HasType ty) :
    Ensures (WellTyped F) Fault.Any (writeStatic f v) fun _ => True :=
  .bind .freshLabel fun _ _ => ensures_write named (.ofInt 0 (by decide) (by decide)) h

theorem promote_ofSort {l : Label} {ty : Ty} {a t : Term} (h : a.OfSort ty.sort)
    (promoted : promote l ty a = .ok t) : t.OfSort t.sort := by
  unfold promote at promoted
  split at promoted
  next char =>
    subst char
    exact ⟨rfl, (h.cast promoted).2⟩
  next =>
    cases promoted
    exact ⟨rfl, h.2⟩

/-- An operator on two values of one kind gives a well-sorted term. -/
theorem applied_ofSort {l : Label} {op : Operator} {v w : SymValue} {s u : Ty} (hv : v.HasType s)
    (hw : w.HasType u) {t : Term} (result : applied l op v w = .ok t) : t.OfSort t.sort := by
  cases v with
  | primitive s' a =>
    cases w with
    | reference => cases result
    | primitive u' b =>
      obtain ⟨rfl, -, ha⟩ := hv.of_primitive
      obtain ⟨rfl, -, hb⟩ := hw.of_primitive
      obtain ⟨a', promoted, result⟩ := except_bind_ok.1 result
      obtain ⟨b', promoted', result⟩ := except_bind_ok.1 result
      exact (promote_ofSort ha promoted).operator (promote_ofSort hb promoted') result
  | reference s' a =>
    cases w with
    | primitive => cases result
    | reference u' b => exact hv.of_reference.2.2.operator hw.of_reference.2.2 result

/-- The result of an operator is well-sorted, and brought to the sort of its type if that is primitive. -/
theorem operate_ok {l : Label} {op : Operator} {v w r : SymValue} {s u ty : Ty} (hv : v.HasType s)
    (hw : w.HasType u) (result : operate l op v w ty = .ok r) :
    ∃ t, r = .primitive ty t ∧ t.OfSort t.sort ∧ (ty.isPrimitive = true → t.sort = ty.sort) := by
  rw [operate_eq] at result
  obtain ⟨t, applied, result⟩ := except_bind_ok.1 result
  obtain ⟨t', converted, result⟩ := except_bind_ok.1 result
  cases result
  have sorted := applied_ofSort hv hw applied
  refine ⟨t', rfl, ?_⟩
  unfold fitted at converted
  split at converted
  next =>
    have target := sorted.convert ty.sort_valued converted
    exact ⟨⟨rfl, target.2⟩, fun _ => target.1⟩
  next same =>
    cases converted
    exact ⟨sorted, fun primitive => Decidable.of_not_not fun other => same ⟨primitive, other⟩⟩

theorem operate_hasType {l : Label} {op : Operator} {v w r : SymValue} {s u ty : Ty} (hv : v.HasType s)
    (hw : w.HasType u) (primitive : ty.isPrimitive = true) (result : operate l op v w ty = .ok r) :
    r.HasType ty := by
  obtain ⟨t, rfl, sorted, sort⟩ := operate_ok hv hw result
  exact .primitive (Ty.isReference_of_isPrimitive primitive) ⟨sort primitive, sorted.2⟩

theorem ensures_binary {op : Operator} {v w : SymValue} {s u ty : Ty} (hv : v.HasType s) (hw : w.HasType u)
    (primitive : ty.isPrimitive = true) :
    Ensures (WellTyped F) Fault.Any (binary op v w ty) fun r => r.HasType ty :=
  .bind .freshLabel fun _ _ => .lift (fun _ => operate_hasType hv hw primitive) fun _ _ => trivial

theorem ensures_negate {v : SymValue} {ty : Ty} (h : v.HasType ty) :
    Ensures (WellTyped F) Fault.Any (negate v) fun r => r.HasType ty := by
  refine .bind .freshLabel fun l _ => ?_
  cases v with
  | reference => exact .throw trivial
  | primitive s t =>
    obtain ⟨rfl, kind, sorted⟩ := h.of_primitive
    refine .bind (.lift (fun _ => sorted.negate) fun _ _ => trivial) fun u negated => ?_
    exact .pure (.primitive kind negated)

theorem ensures_cast {v : SymValue} {s : Ty} (h : v.HasType s) (ty : Ty) :
    Ensures (WellTyped F) Fault.Any (cast v ty) fun r => r.HasType ty := by
  unfold cast
  split
  next same => exact .pure (same ▸ h.self)
  next =>
    cases v with
    | reference => exact ensures_unknown ty
    | primitive source t =>
      dsimp only
      split
      next primitive =>
        obtain ⟨rfl, -, sorted⟩ := h.of_primitive
        refine .bind .freshLabel fun l _ => ?_
        refine .bind (.lift (fun _ => sorted.cast) fun _ _ => trivial) fun u converted => ?_
        exact .pure (.primitive (Ty.isReference_of_isPrimitive primitive) converted)
      next => exact ensures_unknown ty

theorem ensures_declaredAs {v : SymValue} {s : Ty} (h : v.HasType s) (ty : Ty) :
    Ensures (WellTyped F) Fault.Any (declaredAs v ty) fun r => r.HasType ty := by
  cases v with
  | primitive => exact ensures_cast h ty
  | reference source address =>
    simp only [declaredAs]
    split
    next kind => exact .pure (.reference kind.1 h.of_reference.2.2)
    next => exact ensures_cast h ty

/-- The condition of a value is its term. -/
theorem condition_ok {v : SymValue} {t : Term} (h : condition v = .ok t) : t = v.term ∧ t.sort = .bool := by
  cases v with
  | reference => cases h
  | primitive s a =>
    simp only [condition] at h
    split at h
    next isBool =>
      cases h
      exact ⟨rfl, isBool⟩
    next => cases h

theorem condition_ofSort {v : SymValue} {ty : Ty} (h : v.HasType ty) {t : Term} (found : condition v = .ok t) :
    t.OfSort .bool := by
  obtain ⟨rfl, sort⟩ := condition_ok found
  exact ⟨sort, h.sorted⟩

end Machine
end SinkReach
