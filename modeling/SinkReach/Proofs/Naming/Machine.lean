import SinkReach.Proofs.Naming.Terms
import SinkReach.Proofs.Symbolic.Context
import SinkReach.Proofs.Symbolic.Run
import SinkReach.Proofs.Table

/-!
Names that a context accounts for. Whatever the machine does, the context that it leaves accounts for the
names of all constants in its state, its effects and its results; and if it fails, that is due to the
values at hand.
-/
namespace SinkReach

/-- The name was given to an unknown, or is that of the array of tags or of the array of a field. -/
def Context.Accounts (c : Context) (name : String) : Prop :=
  c.Issued name ∨ name = Registry.arrayName ∨ ∃ k : Chunk, name = k.id

namespace Context.Accounts

variable {c c' : Context}

theorem mono (le : c.Before c') (name : String) (h : c.Accounts name) : c'.Accounts name :=
  h.imp_left fun issued => issued.mono le

theorem tags : c.Accounts Registry.arrayName := .inr (.inl rfl)

theorem field (k : Chunk) : c.Accounts k.id := .inr (.inr ⟨k, rfl⟩)

end Context.Accounts

/-- The values of locals and the arrays of fields have constants with names of a kind. -/
structure Memory.Over (N : String → Prop) (m : Memory) : Prop where
  locals : ∀ e ∈ m.locals.entries, e.2.term.Over N
  fields : ∀ e ∈ m.fields.entries, e.2.Over N

structure SymState.Over (N : String → Prop) (s : SymState) : Prop where
  memory : s.memory.Over N
  constraints : ∀ t ∈ s.constraints, t.Over N

def Update.Over (N : String → Prop) : Update → Prop
  | .constraint t => t.Over N
  | .allocate _ => True
  | .bind _ v => v.term.Over N
  | .store _ i e => i.Over N ∧ e.Over N
  | .set _ a => a.Over N

structure Machine.Over (N : String → Prop) (M : Machine) : Prop where
  base : M.base.Over N
  pending : ∀ u ∈ M.pending, u.Over N

variable {N N' : String → Prop} {c c' : Context}

theorem Term.Over.later {t : Term} (h : t.Over c.Accounts) (le : c.Before c') : t.Over c'.Accounts :=
  h.mono (Context.Accounts.mono le)

theorem Update.Over.mono {u : Update} (h : u.Over N) (imp : ∀ name, N name → N' name) : u.Over N' := by
  cases u with
  | constraint => exact Term.Over.mono h imp
  | allocate => trivial
  | bind => exact Term.Over.mono h imp
  | store => exact ⟨h.1.mono imp, h.2.mono imp⟩
  | set => exact Term.Over.mono h imp

namespace Memory.Over

variable {m : Memory}

theorem mono (h : m.Over N) (imp : ∀ name, N name → N' name) : m.Over N' :=
  ⟨fun e mem => (h.locals e mem).mono imp, fun e mem => (h.fields e mem).mono imp⟩

theorem empty : Memory.empty.Over N := ⟨fun _ mem => (nomatch mem), fun _ mem => nomatch mem⟩

theorem local? (h : m.Over N) {id : LocalId} {v : SymValue} (found : m.local? id = some v) : v.term.Over N :=
  h.locals _ (Table.mem_of_get? found)

/-- The array of a field that was never stored into is called like the field. -/
theorem array (h : m.Over c.Accounts) (l : Label) (k : Chunk) : (m.array l k).Over c.Accounts := by
  unfold Memory.array
  cases found : m.fields.get? k with
  | none => exact .var (.field k)
  | some a =>
    obtain ⟨k', mem, -⟩ := Table.exists_of_lookup found
    exact h.fields _ mem

theorem bind (h : m.Over N) (id : LocalId) {v : SymValue} (value : v.term.Over N) : (m.bind id v).Over N := by
  refine ⟨fun e mem => ?_, h.fields⟩
  rcases Table.mem_insert mem with rfl | mem
  · exact value
  · exact h.locals e mem

theorem bindAll (h : m.Over N) {bindings : List (LocalId × SymValue)}
    (values : ∀ b ∈ bindings, b.2.term.Over N) : (m.bindAll bindings).Over N := by
  induction bindings generalizing m with
  | nil => exact h
  | cons b bs ih =>
    obtain ⟨first, rest⟩ := List.forall_mem_cons.1 values
    exact ih (h.bind b.1 first) rest

theorem setArray (h : m.Over N) (k : Chunk) {a : Term} (array : a.Over N) : (m.setArray k a).Over N := by
  refine ⟨h.locals, fun e mem => ?_⟩
  rcases Table.mem_insert mem with rfl | mem
  · exact array
  · exact h.fields e mem

theorem withoutLocalsOf (h : m.Over N) (method : Method) : (m.withoutLocalsOf method).Over N :=
  ⟨fun e mem => h.locals e (List.mem_filter.1 mem).1, h.fields⟩

end Memory.Over

namespace SymState.Over

variable {s : SymState}

theorem mono (h : s.Over N) (imp : ∀ name, N name → N' name) : s.Over N' :=
  ⟨h.memory.mono imp, fun t mem => (h.constraints t mem).mono imp⟩

theorem later (h : s.Over c.Accounts) (le : c.Before c') : s.Over c'.Accounts := h.mono (Context.Accounts.mono le)

theorem initial : SymState.initial.Over N := ⟨.empty, fun _ mem => nomatch mem⟩

theorem withMemory (h : s.Over N) {m : Memory} (memory : m.Over N) : (s.withMemory m).Over N :=
  ⟨memory, h.constraints⟩

theorem assume (h : s.Over N) {t : Term} (condition : t.Over N) : (s.assume t).Over N :=
  ⟨h.memory, List.forall_mem_append.2 ⟨h.constraints, List.forall_mem_singleton.2 condition⟩⟩

theorem update (h : s.Over c.Accounts) (l : Label) {u : Update} (effect : u.Over c.Accounts) :
    (s.update l u).Over c.Accounts := by
  cases u with
  | constraint t => exact h.assume effect
  | allocate n => exact ⟨h.memory, h.constraints⟩
  | bind id v => exact h.withMemory (h.memory.bind id effect)
  | store k i e => exact h.withMemory (h.memory.setArray k (.ternary (h.memory.array _ k) effect.1 effect.2))
  | set k a => exact h.withMemory (h.memory.setArray k effect)

theorem updateAll (h : s.Over c.Accounts) {us : List Update} (effects : ∀ u ∈ us, u.Over c.Accounts) (l : Label) :
    (s.updateAll l us).Over c.Accounts := by
  induction us generalizing s l with
  | nil => exact h
  | cons u us ih =>
    obtain ⟨first, rest⟩ := List.forall_mem_cons.1 effects
    exact ih (h.update l first) rest (l + 2)

end SymState.Over

namespace Machine.Over

variable {M : Machine}

theorem mono (h : M.Over N) (imp : ∀ name, N name → N' name) : M.Over N' :=
  ⟨h.base.mono imp, fun u mem => (h.pending u mem).mono imp⟩

theorem start {s : SymState} (h : s.Over N) : (Machine.start s).Over N := ⟨h, fun _ mem => nomatch mem⟩

end Machine.Over

/-- From any context after the given one, the operation leaves a context that accounts for the names in
the machine, and in which the result has a property; or it fails because of the values at hand. -/
def Run.Accounted {α : Type} (c : Context) (x : Run α) (P : Context → α → Prop) : Prop :=
  ∀ M c', c.Before c' → M.Over c'.Accounts → match (x.run.run M).run c' with
    | ((.ok a, M'), c'') => c'.Before c'' ∧ M'.Over c''.Accounts ∧ P c'' a
    | ((.error f, _), _) => f.OfValues

namespace Run.Accounted

variable {α β : Type} {P Q : Context → α → Prop} {x : Run α}

theorem pure {a : α} (h : ∀ c', c.Before c' → P c' a) : Accounted c (Pure.pure a : Run α) P :=
  fun _ c' le names => ⟨.refl c', names, h c' le⟩

theorem bind {f : α → Run β} {R : Context → β → Prop} (hx : Accounted c x P)
    (hf : ∀ a c', c.Before c' → P c' a → Accounted c' (f a) R) : Accounted c (x >>= f) R := by
  intro M c' le names
  rw [Run.run_bind_eq]
  have first := hx M c' le names
  revert first
  rcases (x.run.run M).run c' with ⟨⟨e | a, M₁⟩, c₁⟩
  · exact fun fault => fault
  · rintro ⟨before, names₁, ha⟩
    have second := hf a c₁ (le.trans before) ha M₁ c₁ (.refl c₁) names₁
    revert second
    dsimp only
    rcases ((f a).run.run M₁).run c₁ with ⟨⟨e | b, M₂⟩, c₂⟩
    · exact fun fault => fault
    · exact fun ⟨before', names₂, hb⟩ => ⟨before.trans before', names₂, hb⟩

theorem mono (hx : Accounted c x P) (imp : ∀ c' a, P c' a → Q c' a) : Accounted c x Q := by
  intro M c' le names
  have result := hx M c' le names
  revert result
  rcases (x.run.run M).run c' with ⟨⟨e | a, M₁⟩, c₁⟩
  · exact fun fault => fault
  · exact fun ⟨before, names₁, ha⟩ => ⟨before, names₁, imp c₁ a ha⟩

theorem later (hx : Accounted c x P) (le : c.Before c') : Accounted c' x P :=
  fun M c'' le' names => hx M c'' (le.trans le') names

theorem throw {f : Fault} (h : f.OfValues) : Accounted c (MonadExcept.throw f : Run α) P := fun _ _ _ _ => h

theorem lift {y : Except Fault α} (h : ∀ c', c.Before c' → Computes y (P c')) :
    Accounted c (liftExcept y : Run α) P := by
  cases y with
  | ok a => exact pure h
  | error f => exact throw (h c (.refl c))

/-- An operation on the context alone. -/
theorem context {f : Context → α × Context} (h : ∀ c', c'.Before (f c').2 ∧ P (f c').2 (f c').1) :
    Accounted c (modifyGetThe Context f : Run α) P :=
  fun _ c' _ names => ⟨(h c').1, names.mono (Context.Accounts.mono (h c').1), (h c').2⟩

theorem freshLabel : Accounted c (SinkReach.freshLabel : Run Label) fun _ _ => True :=
  context fun c' => ⟨.relabel c' _, trivial⟩

theorem get : Accounted c (getThe Machine : Run Machine) fun c' M => M.Over c'.Accounts :=
  fun _ c' _ names => ⟨.refl c', names, names⟩

theorem modify {f : Machine → Machine}
    (h : ∀ c', c.Before c' → ∀ M, M.Over c'.Accounts → (f M).Over c'.Accounts) :
    Accounted c (modifyThe Machine f : Run Unit) fun _ _ => True :=
  fun M c' le names => ⟨.refl c', h c' le M names, trivial⟩

theorem drain : Accounted c Machine.drain fun _ _ => True :=
  fun _ c' _ names => ⟨.refl c', ⟨names.base, fun _ mem => nomatch mem⟩, trivial⟩

/-- A list is gone through; what holds of a result keeps holding. -/
theorem mapM {f : α → Run β} {R : Context → β → Prop} {as : List α}
    (stable : ∀ {c c' b}, R c b → c.Before c' → R c' b)
    (h : ∀ a ∈ as, ∀ c', c.Before c' → Accounted c' (f a) R) :
    Accounted c (as.mapM f) fun c' bs => ∀ b ∈ bs, R c' b := by
  induction as generalizing c with
  | nil =>
    rw [List.mapM_nil]
    exact pure fun _ _ _ mem => nomatch mem
  | cons a as ih =>
    rw [List.mapM_cons]
    refine bind (h a List.mem_cons_self c (.refl c)) fun b c₁ le hb => ?_
    refine bind (ih fun a' mem c₂ le' => h a' (List.mem_cons_of_mem _ mem) c₂ (le.trans le')) fun bs c₂ le' hbs => ?_
    refine pure fun c₃ le'' => List.forall_mem_cons.2 ⟨stable hb (le'.trans le''), fun b' mem => ?_⟩
    exact stable (hbs b' mem) le''

/-- What a run that succeeds leaves. -/
theorem of_yields {M M' : Machine} {a : α} (h : Accounted c x P) (names : M.Over c.Accounts)
    (run : x.Yields M c a M' c') : c.Before c' ∧ M'.Over c'.Accounts ∧ P c' a := by
  have result := h M c (.refl c) names
  rw [run] at result
  exact result

end Run.Accounted

namespace Registry

variable {a : Term} {l : Label}

theorem over_isNull (h : a.Over N) : (isNull l a).Over N := h.eq .ofInt

theorem over_hasTag (h : a.Over c.Accounts) (id : Nat) : (hasTag l a id).Over c.Accounts := by
  have tag : (tag (l + 2) a).Over c.Accounts := .binary (.var .tags) h
  exact (tag.eq .ofInt).and (over_isNull h).not

theorem over_typeConstraint (h : a.Over c.Accounts) (r : Registry) (ty : Ty) :
    (r.typeConstraint l a ty).1.Over c.Accounts := over_hasTag h _

theorem over_typeOrNull (h : a.Over c.Accounts) (r : Registry) (ty : Ty) :
    (r.typeOrNull l a ty).1.Over c.Accounts := (over_hasTag h _).or (over_isNull h)

end Registry

namespace Machine

open Run (Accounted)

theorem accounted_emit {u : Update} (h : ∀ c', c.Before c' → u.Over c'.Accounts) :
    Accounted c (emit u) fun _ _ => True :=
  .modify fun c' le _ names =>
    ⟨names.base, List.forall_mem_append.2 ⟨names.pending, List.forall_mem_singleton.2 (h c' le)⟩⟩

/-- A constraint on the type of an address is assumed. -/
theorem accounted_assumeTyped {build : Registry → Term × Registry}
    (condition : ∀ c', c.Before c' → (build c'.registry).1.Over c'.Accounts) (more : ∀ r, r ≤ (build r).2) :
    Accounted c (do assume (← typed build)) fun _ _ => True := by
  intro M c' le names
  have before : c'.Before { c' with registry := (build c'.registry).2 } :=
    ⟨Nat.le_refl _, Nat.le_refl _, more c'.registry⟩
  have later := names.mono (Context.Accounts.mono before)
  exact ⟨before, ⟨later.base, List.forall_mem_append.2 ⟨later.pending,
    List.forall_mem_singleton.2 ((condition c' le).later before)⟩⟩, trivial⟩

theorem accounted_freshVar (l : Label) (s : TermSort) :
    Accounted c (freshVar l s) fun c' t => t.Over c'.Accounts :=
  .context fun c' => ⟨c'.before_nextLocal, .var (.inl c'.issued_nextLocal)⟩

theorem accounted_freshLiteral (l : Label) (s : TermSort) :
    Accounted c (freshLiteral l s) fun c' t => t.Over c'.Accounts :=
  .context fun c' => ⟨c'.before_nextUnbounded, .var (.inl c'.issued_nextUnbounded)⟩

theorem accounted_unknown (ty : Ty) : Accounted c (unknown ty) fun c' v => v.term.Over c'.Accounts := by
  refine .bind .freshLabel fun l c₁ _ _ => ?_
  cases ty with
  | void | null => exact .pure fun _ _ => .ofInt
  | ref | array =>
    refine .bind (accounted_freshVar l Address.sort) fun address c₂ _ names => ?_
    rw [← bind_assoc]
    refine .bind (accounted_assumeTyped (fun c' le => Registry.over_typeOrNull (names.later le) _ _)
      fun r => Registry.le_tagOf r _) fun _ c₃ le _ => ?_
    exact .pure fun c' le' => names.later (le.trans le')
  | boolean | byte | short | char | int | long | float | double =>
    exact .bind (accounted_freshVar l _) fun t c₂ _ names => .pure fun c' le => names.later le

theorem accounted_bind {id : LocalId} {v : SymValue} (h : v.term.Over c.Accounts) :
    Accounted c (bind id v) fun _ _ => True := accounted_emit fun _ le => h.later le

theorem accounted_declare (id : LocalId) : Accounted c (declare id) fun _ _ => True :=
  .bind (accounted_unknown id.ty) fun _ _ _ names =>
    .bind (accounted_bind names) fun _ _ _ _ => .pure fun _ _ => trivial

theorem accounted_allocate (ty : Ty) : Accounted c (allocate ty) fun c' v => v.term.Over c'.Accounts := by
  refine .bind .freshLabel fun l c₁ _ _ => .bind .get fun M c₂ _ _ => ?_
  refine .bind (.modify fun _ _ _ names => ⟨names.base, names.pending⟩) fun _ c₃ _ _ => ?_
  refine .bind (accounted_emit fun _ _ => trivial) fun _ c₄ _ _ => ?_
  dsimp only
  rw [← bind_assoc]
  refine .bind (accounted_assumeTyped (fun c' _ => Registry.over_typeConstraint .ofInt _ _)
    fun r => Registry.le_tagOf r _) fun _ c₅ _ _ => ?_
  exact .pure fun _ _ => .ofInt

theorem accounted_constant (k : Constant) : Accounted c (constant k) fun c' v => v.term.Over c'.Accounts := by
  refine .bind .freshLabel fun l c₁ _ _ => ?_
  cases k with
  | int | long | null => exact .pure fun _ _ => .ofInt
  | float | double => exact .pure fun _ _ => .ofFloatBits
  | string | classLiteral =>
    refine .bind (accounted_freshLiteral l Address.sort) fun address c₂ _ names => ?_
    rw [← bind_assoc]
    refine .bind (accounted_assumeTyped (fun c' le => Registry.over_typeConstraint (names.later le) _ _)
      fun r => Registry.le_tagOf r _) fun _ c₃ le _ => ?_
    exact .pure fun c' le' => names.later (le.trans le')

theorem over_pendingLocal? {id : LocalId} {us : List Update} (h : ∀ u ∈ us, u.Over N) {v : SymValue}
    (found : pendingLocal? id us = some v) : v.term.Over N := by
  induction us with
  | nil => cases found
  | cons u us ih =>
    obtain ⟨first, rest⟩ := List.forall_mem_cons.1 h
    unfold pendingLocal? at found
    split at found
    next later =>
      cases found
      exact ih rest later
    next =>
      split at found
      next =>
        split at found
        next =>
          cases found
          exact first
        next => cases found
      next => cases found

theorem accounted_local? (id : LocalId) :
    Accounted c (local? id) fun c' o => ∀ v, o = some v → v.term.Over c'.Accounts := by
  refine .bind .get fun M c₁ _ names => .pure fun c' le v found => ?_
  refine Term.Over.later ?_ le
  cases pending : pendingLocal? id M.pending with
  | some u =>
    rw [pending] at found
    cases found
    exact over_pendingLocal? names.pending pending
  | none =>
    rw [pending] at found
    exact names.base.memory.local? found

theorem over_wrap {ty : Ty} {t : Term} (h : t.Over N) : (SymValue.wrap ty t).term.Over N := by
  unfold SymValue.wrap
  split
  · exact h
  · exact h

theorem accounted_read {address : Term} (h : address.Over c.Accounts) (f : Field) :
    Accounted c (read address f) fun c' v => v.term.Over c'.Accounts := by
  refine .bind .freshLabel fun l c₁ le _ => .bind .get fun M c₂ le' names => .pure fun c₃ le'' => over_wrap ?_
  exact .binary ((names.base.memory.array _ _).later le'') (h.later (le.trans (le'.trans le'')))

theorem computes_addressOf {v : SymValue} (h : v.term.Over N) (f : Field) :
    Computes (addressOf v f) (·.Over N) := by
  cases v with
  | primitive => exact .resolution rfl
  | reference => exact h

theorem accounted_addressOf {v : SymValue} (h : v.term.Over c.Accounts) (f : Field) :
    Accounted c (liftExcept (addressOf v f)) fun c' t => t.Over c'.Accounts :=
  .lift fun _ le => computes_addressOf (h.later le) f

theorem accounted_readField {v : SymValue} (h : v.term.Over c.Accounts) (f : Field) :
    Accounted c (readField v f) fun c' w => w.term.Over c'.Accounts :=
  .bind (accounted_addressOf h f) fun _ _ _ address => accounted_read address f

theorem accounted_readStatic (f : Field) : Accounted c (readStatic f) fun c' v => v.term.Over c'.Accounts :=
  .bind .freshLabel fun _ _ _ _ => accounted_read .ofInt f

theorem computes_coerce {l : Label} {v : SymValue} (h : v.term.Over N) (ty : Ty) :
    Computes (coerce l v ty) (·.Over N) := by
  cases v with
  | primitive =>
    simp only [coerce]
    split
    · exact h.cast
    · exact .sortMismatch rfl
  | reference =>
    simp only [coerce]
    split
    · exact h
    · exact .sortMismatch rfl

theorem accounted_write {address : Term} {v : SymValue} (index : address.Over c.Accounts)
    (h : v.term.Over c.Accounts) (f : Field) : Accounted c (write address f v) fun _ _ => True := by
  refine .bind .freshLabel fun l c₁ le _ => ?_
  refine .bind (.lift fun c' le' => computes_coerce (h.later (le.trans le')) f.ty) fun e c₂ le' element => ?_
  exact accounted_emit fun c' le'' => ⟨index.later (le.trans (le'.trans le'')), element.later le''⟩

theorem accounted_writeField {base v : SymValue} (object : base.term.Over c.Accounts)
    (h : v.term.Over c.Accounts) (f : Field) : Accounted c (writeField base f v) fun _ _ => True :=
  .bind (accounted_addressOf object f) fun _ _ le address => accounted_write address (h.later le) f

theorem accounted_writeStatic {v : SymValue} (h : v.term.Over c.Accounts) (f : Field) :
    Accounted c (writeStatic f v) fun _ _ => True :=
  .bind .freshLabel fun _ _ le _ => accounted_write .ofInt (h.later le) f

theorem computes_promote {l : Label} {ty : Ty} {a : Term} (h : a.Over N) :
    Computes (promote l ty a) (·.Over N) := by
  unfold promote
  split
  · exact h.cast
  · exact h

theorem computes_operate {l : Label} {op : Operator} {v w : SymValue} {ty : Ty} (hv : v.term.Over N)
    (hw : w.term.Over N) : Computes (operate l op v w ty) (·.term.Over N) := by
  have result : Computes (applied l op v w) (·.Over N) := by
    cases v with
    | primitive s a =>
      cases w with
      | reference => exact .unsupported rfl
      | primitive u b =>
        refine (computes_promote hv).bind fun a' ha => (computes_promote hw).bind fun b' hb => ?_
        exact Operator.computes_apply ha hb op
    | reference s a =>
      cases w with
      | primitive => exact .unsupported rfl
      | reference u b => exact Operator.computes_apply hv hw op
  rw [operate_eq]
  refine result.bind fun t ht => Computes.bind (P := (·.Over N)) ?_ fun r hr => hr
  unfold fitted
  split
  · exact ht.convert
  · exact ht

theorem accounted_binary {op : Operator} {v w : SymValue} {ty : Ty} (hv : v.term.Over c.Accounts)
    (hw : w.term.Over c.Accounts) : Accounted c (binary op v w ty) fun c' r => r.term.Over c'.Accounts :=
  .bind .freshLabel fun _ _ le _ => .lift fun _ le' =>
    computes_operate (hv.later (le.trans le')) (hw.later (le.trans le'))

theorem accounted_negate {v : SymValue} (h : v.term.Over c.Accounts) :
    Accounted c (negate v) fun c' r => r.term.Over c'.Accounts := by
  refine .bind .freshLabel fun l c₁ le _ => ?_
  cases v with
  | reference => exact .throw (.inr (.inl rfl))
  | primitive s t =>
    refine .bind (.lift fun c' le' => Operator.computes_negate (h.later (le.trans le'))) fun u c₂ _ names => ?_
    exact .pure fun c' le' => names.later le'

theorem accounted_cast {v : SymValue} (h : v.term.Over c.Accounts) (ty : Ty) :
    Accounted c (cast v ty) fun c' r => r.term.Over c'.Accounts := by
  unfold cast
  split
  · exact .pure fun c' le => h.later le
  · cases v with
    | reference => exact accounted_unknown ty
    | primitive source t =>
      dsimp only
      split
      · refine .bind .freshLabel fun l c₁ le _ => ?_
        refine .bind (.lift fun c' le' => (h.later (le.trans le')).cast) fun u c₂ _ names => ?_
        exact .pure fun c' le' => names.later le'
      · exact accounted_unknown ty

theorem accounted_declaredAs {v : SymValue} (h : v.term.Over c.Accounts) (ty : Ty) :
    Accounted c (declaredAs v ty) fun c' r => r.term.Over c'.Accounts := by
  cases v with
  | primitive => exact accounted_cast h ty
  | reference =>
    simp only [declaredAs]
    split
    · exact .pure fun c' le => h.later le
    · exact accounted_cast h ty

theorem computes_choose {l : Label} {guard : Term} {v w : SymValue} (hg : guard.Over N) (hv : v.term.Over N)
    (hw : w.term.Over N) : Computes (choose l guard v w) (·.term.Over N) := by
  cases v with
  | primitive s a =>
    cases w with
    | reference => exact .sortMismatch rfl
    | primitive u b =>
      simp only [choose]
      split
      · exact (hg.conditional hv hw).bind fun r hr => hr
      · exact hw.cast.bind fun b' hb => (hg.conditional hv hb).bind fun r hr => hr
  | reference s a =>
    cases w with
    | primitive => exact .sortMismatch rfl
    | reference u b => exact (hg.conditional hv hw).bind fun r hr => hr

theorem computes_condition {v : SymValue} (h : v.term.Over N) : Computes (condition v) (·.Over N) := by
  cases v with
  | reference => exact .sortMismatch rfl
  | primitive s t =>
    simp only [condition]
    split
    · exact h
    · exact .sortMismatch rfl

end Machine
end SinkReach
