import SinkReach.Proofs.Program.Discipline
import SinkReach.Proofs.Simulation.State
import SinkReach.Proofs.Symbolic.Context
import SinkReach.Proofs.Symbolic.Run

/-!
Operations of the machine, run on twin states, give twin results. Two runs meet when their machines
have gathered twin updates and the links are accounted for by their contexts; an operation that both
perform lets them meet again, under more links.
-/
namespace SinkReach

/-- Links that two contexts account for, with the next addresses of the two runs. -/
structure Tidy (S : Scene) (κ : Links) (c c' : Context) (n n' : Nat) : Prop where
  issued : ∀ k ∈ κ.consts, c'.Issued k.name
  distinct : (κ.consts.map ConstLink.name).Nodup
  sound : ∀ k ∈ κ.consts, k.Sound
  sources : S.mirrored → (∀ k ∈ κ.consts, ∃ name, k.source? = some name ∧ c.Issued name) ∧
    (κ.consts.map ConstLink.source?).Nodup
  objects : ∀ o ∈ κ.objects, (1 ≤ o.1 ∧ o.1 < n) ∧ 1 ≤ o.2 ∧ o.2 < n'
  objects_left : (κ.objects.map Prod.fst).Nodup
  objects_right : (κ.objects.map Prod.snd).Nodup
  positive : 1 ≤ n ∧ 1 ≤ n'
  behind : n' ≤ n
  unrepeated : c'.registry.types.Nodup
  types : ∀ i ∈ κ.types, ∃ ty, c.registry.number? ty = some i.1 ∧ c'.registry.number? ty = some i.2
  registered : ∀ ty j, c'.registry.number? ty = some j →
    ∃ i, c.registry.number? ty = some i ∧ (i, j) ∈ κ.types

namespace Links

def addConst (κ : Links) (k : ConstLink) : Links := { κ with consts := k :: κ.consts }

def addObject (κ : Links) (o : Nat × Nat) : Links := { κ with objects := o :: κ.objects }

def addType (κ : Links) (i : Nat × Nat) : Links := { κ with types := i :: κ.types }

theorem le_addConst (κ : Links) (k : ConstLink) : κ ≤ κ.addConst k :=
  ⟨fun _ h => List.mem_cons_of_mem _ h, fun _ h => h, fun _ h => h⟩

theorem le_addObject (κ : Links) (o : Nat × Nat) : κ ≤ κ.addObject o :=
  ⟨fun _ h => h, fun _ h => List.mem_cons_of_mem _ h, fun _ h => h⟩

theorem le_addType (κ : Links) (i : Nat × Nat) : κ ≤ κ.addType i :=
  ⟨fun _ h => h, fun _ h => h, fun _ h => List.mem_cons_of_mem _ h⟩

end Links

namespace Tidy

variable {S : Scene} {κ : Links} {c c' d d' : Context} {n n' : Nat}

/-- More may have happened in the left run. -/
theorem mono_left (h : Tidy S κ c c' n n') (le : c.Before d) {m : Nat} (high : n ≤ m) :
    Tidy S κ d c' m n' where
  issued := h.issued
  distinct := h.distinct
  sound := h.sound
  sources := fun mirrored => (h.sources mirrored).imp_left fun all k hk => by
    obtain ⟨name, source, issued⟩ := all k hk
    exact ⟨name, source, issued.mono le⟩
  objects := fun o ho => by
    have := h.objects o ho
    omega
  objects_left := h.objects_left
  objects_right := h.objects_right
  positive := by
    have := h.positive
    omega
  behind := Nat.le_trans h.behind high
  unrepeated := h.unrepeated
  types := fun i hi => by
    obtain ⟨ty, left, right⟩ := h.types i hi
    exact ⟨ty, le.registry ty _ left, right⟩
  registered := fun ty j known => by
    obtain ⟨i, left, linked⟩ := h.registered ty j known
    exact ⟨i, le.registry ty i left, linked⟩

theorem relabel (h : Tidy S κ c c' n n') (x x' : Nat) :
    Tidy S κ { c with labels := x } { c' with labels := x' } n n' :=
  ⟨h.issued, h.distinct, h.sound, h.sources, h.objects, h.objects_left, h.objects_right, h.positive, h.behind,
    h.unrepeated, h.types, h.registered⟩

/-- Two unknowns that have just been issued are linked. -/
theorem addConst (h : Tidy S κ c c' n n') {k : ConstLink} (le : c.Before d) (le' : c'.Before d')
    (same : d.registry = c.registry) (same' : d'.registry = c'.registry) (fresh : ¬ c'.Issued k.name)
    (issued : d'.Issued k.name) (sound : k.Sound)
    (source : S.mirrored → ∃ name, k.source? = some name ∧ ¬ c.Issued name ∧ d.Issued name) :
    Tidy S (κ.addConst k) d d' n n' where
  issued := by
    intro k₁ hk
    rcases List.mem_cons.1 hk with rfl | hk
    · exact issued
    · exact (h.issued k₁ hk).mono le'
  distinct := by
    refine List.nodup_cons.2 ⟨fun mem => ?_, h.distinct⟩
    obtain ⟨k₁, hk, eq⟩ := List.mem_map.1 mem
    exact fresh (eq ▸ h.issued k₁ hk)
  sound := List.forall_mem_cons.2 ⟨sound, h.sound⟩
  sources := fun mirrored => by
    obtain ⟨all, nodup⟩ := h.sources mirrored
    obtain ⟨name, hname, unused, used⟩ := source mirrored
    refine ⟨fun k₁ hk => ?_, List.nodup_cons.2 ⟨fun mem => ?_, nodup⟩⟩
    · rcases List.mem_cons.1 hk with rfl | hk
      · exact ⟨name, hname, used⟩
      · obtain ⟨name₁, hname₁, used₁⟩ := all k₁ hk
        exact ⟨name₁, hname₁, used₁.mono le⟩
    · obtain ⟨k₁, hk, eq⟩ := List.mem_map.1 mem
      obtain ⟨name₁, hname₁, used₁⟩ := all k₁ hk
      rw [hname₁, hname, Option.some.injEq] at eq
      exact unused (eq ▸ used₁)
  objects := h.objects
  objects_left := h.objects_left
  objects_right := h.objects_right
  positive := h.positive
  behind := h.behind
  unrepeated := by
    rw [same']
    exact h.unrepeated
  types := by
    rw [same, same']
    exact h.types
  registered := by
    rw [same, same']
    exact h.registered

/-- The next objects of the two runs are linked. -/
theorem addObject (h : Tidy S κ c c' n n') : Tidy S (κ.addObject (n, n')) c c' (n + 1) (n' + 1) where
  issued := h.issued
  distinct := h.distinct
  sound := h.sound
  sources := h.sources
  objects := by
    intro o ho
    have positive := h.positive
    rcases List.mem_cons.1 ho with rfl | ho
    · simp only
      omega
    · have := h.objects o ho
      omega
  objects_left := by
    refine List.nodup_cons.2 ⟨fun mem => ?_, h.objects_left⟩
    obtain ⟨o, ho, eq⟩ := List.mem_map.1 mem
    have := (h.objects o ho).1
    omega
  objects_right := by
    refine List.nodup_cons.2 ⟨fun mem => ?_, h.objects_right⟩
    obtain ⟨o, ho, eq⟩ := List.mem_map.1 mem
    have := (h.objects o ho).2
    omega
  positive := by omega
  behind := Nat.succ_le_succ h.behind
  unrepeated := h.unrepeated
  types := h.types
  registered := h.registered

/-- The numbers that both runs give to a type are linked. -/
theorem addType (h : Tidy S κ c c' n n') (ty : Ty) :
    Tidy S (κ.addType ((c.registry.tagOf ty).1, (c'.registry.tagOf ty).1))
      { c with registry := (c.registry.tagOf ty).2 } { c' with registry := (c'.registry.tagOf ty).2 }
      n n' where
  issued := h.issued
  distinct := h.distinct
  sound := h.sound
  sources := h.sources
  objects := h.objects
  objects_left := h.objects_left
  objects_right := h.objects_right
  positive := h.positive
  behind := h.behind
  unrepeated := Registry.nodup_tagOf h.unrepeated ty
  types := by
    intro i hi
    rcases List.mem_cons.1 hi with rfl | hi
    · exact ⟨ty, Registry.number?_tagOf_self .., Registry.number?_tagOf_self ..⟩
    · obtain ⟨ty₁, left, right⟩ := h.types i hi
      exact ⟨ty₁, Registry.le_tagOf _ ty ty₁ _ left, Registry.le_tagOf _ ty ty₁ _ right⟩
  registered := by
    intro ty₁ j known
    rw [Registry.number?_tagOf] at known
    split at known
    next same =>
      subst same
      cases known
      exact ⟨_, Registry.number?_tagOf_self .., List.mem_cons_self⟩
    next =>
      obtain ⟨i, left, linked⟩ := h.registered ty₁ j known
      exact ⟨i, Registry.le_tagOf _ ty ty₁ i left, List.mem_cons_of_mem _ linked⟩

end Tidy

theorem Term.align_addresses {a b : Term} (ha : a.sort = Address.sort) (hb : b.sort = Address.sort)
    (l : Label) : Term.align l a b = .ok (a, b) := by
  unfold Term.align
  rw [ha, hb]
  refine except_bind_ok.2 ⟨Address.sort, rfl, except_bind_ok.2 ⟨Address.sort, rfl, ?_⟩⟩
  exact except_bind_ok.2 ⟨a, if_pos ha, except_bind_ok.2 ⟨b, if_pos hb, rfl⟩⟩

/-- Sameness of addresses carries over. -/
theorem Pointer.equality {S : Scene} {κ : Links} {a a' b b' t t' : Term} {l l' : Label} {op : Operator}
    (ha : Pointer S κ a a') (hb : Pointer S κ b b') (equality : op.isEquality = true)
    (ht : op.apply l a b = .ok t) (ht' : op.apply l' a' b' = .ok t') : Plain S κ .bool t t' := by
  have scalar : a.sort.isArray = false := by rw [ha.2]; rfl
  have sort' : a'.sort = Address.sort := ha.1.sort.symm.trans ha.2
  have same := ha.1.eq (l := l + 32) (d := l' + 32) rfl hb.1 (ha.2.trans hb.2.symm) scalar
  have differ := (ha.1.eq (l := l + 32 + 1) (d := l' + 32 + 1) rfl hb.1 (ha.2.trans hb.2.symm)
    scalar).not (l := l + 32) (d := l' + 32)
  unfold Operator.apply at ht ht'
  rw [Term.align_addresses ha.2 hb.2] at ht
  rw [Term.align_addresses sort' (hb.1.sort.symm.trans hb.2)] at ht'
  simp only [Except.bind, bind, ha.2, sort', Address.sort] at ht ht'
  cases op with
  | eq =>
    cases ht
    cases ht'
    exact same
  | ne =>
    cases ht
    cases ht'
    exact differ
  | _ => cases equality

variable {S : Scene} {κ κ' : Links} {s s' : SymState} {M M' M₁ M₁' : Machine} {c c' c₁ c₁' : Context}

/-- Machines on twin states whose gathered updates are twins. -/
structure Meets (S : Scene) (κ : Links) (s s' : SymState) (M M' : Machine) (c c' : Context) :
    Prop where
  base : M.base = s
  base' : M'.base = s'
  memory : TwinMemory S κ s.memory s'.memory
  pending : List.Forall₂ (TwinUpdate S κ) M.pending M'.pending
  reserved : M.nextAddress = s.nextAddress ∨ .allocate M.nextAddress ∈ M.pending
  reserved' : M'.nextAddress = s'.nextAddress ∨ .allocate M'.nextAddress ∈ M'.pending
  tidy : Tidy S κ c c' M.nextAddress M'.nextAddress
  behind : s'.nextAddress ≤ s.nextAddress

theorem Meets.start (memory : TwinMemory S κ s.memory s'.memory)
    (tidy : Tidy S κ c c' s.nextAddress s'.nextAddress) :
    Meets S κ s s' (.start s) (.start s') c c' where
  base := rfl
  base' := rfl
  memory := memory
  pending := .nil
  reserved := .inl rfl
  reserved' := .inl rfl
  tidy := tidy
  behind := tidy.behind

/-- The machines are the same but for more links and a later context. -/
theorem Meets.relink (h : Meets S κ s s' M M' c c') (le : κ ≤ κ')
    (tidy : Tidy S κ' c₁ c₁' M.nextAddress M'.nextAddress) : Meets S κ' s s' M M' c₁ c₁' where
  base := h.base
  base' := h.base'
  memory := h.memory.mono le
  pending := h.pending.imp fun _ _ hu => hu.mono le
  reserved := h.reserved
  reserved' := h.reserved'
  tidy := tidy
  behind := h.behind

/-- Where two runs meet and both operations succeed, the results are related and the runs meet again. -/
structure Agree {α β : Type} (S : Scene) (κ : Links) (s s' : SymState) (x : Run α) (x' : Run β)
    (post : Links → α → β → Prop) : Prop where
  run : ∀ {M M' c c'}, Meets S κ s s' M M' c c' → ∀ {a a' M₁ M₁' c₁ c₁'}, x.Yields M c a M₁ c₁ →
    x'.Yields M' c' a' M₁' c₁' →
    ∃ κ₁, κ ≤ κ₁ ∧ c.Before c₁ ∧ post κ₁ a a' ∧ Meets S κ₁ s s' M₁ M₁' c₁ c₁'

namespace Agree

variable {α β γ δ : Type} {post : Links → α → β → Prop} {final : Links → γ → δ → Prop}

theorem pure {a : α} {b : β} (h : post κ a b) :
    Agree S κ s s' (Pure.pure a) (Pure.pure b) post := by
  constructor
  intro M M' c c' meets a₁ b₁ M₁ M₁' c₁ c₁' hx hx'
  obtain ⟨rfl, rfl, rfl⟩ := Run.yields_pure.1 hx
  obtain ⟨rfl, rfl, rfl⟩ := Run.yields_pure.1 hx'
  exact ⟨κ, κ.le_refl, .refl _, h, meets⟩

theorem bind {x : Run α} {x' : Run β} {f : α → Run γ} {f' : β → Run δ}
    (hx : Agree S κ s s' x x' post)
    (hf : ∀ κ₁, κ ≤ κ₁ → ∀ a b, post κ₁ a b → Agree S κ₁ s s' (f a) (f' b) final) :
    Agree S κ s s' (x >>= f) (x' >>= f') final := by
  constructor
  intro M M' c c' meets a₁ b₁ M₁ M₁' c₁ c₁' run run'
  obtain ⟨a, N, d, ha, run⟩ := Run.yields_bind.1 run
  obtain ⟨b, N', d', hb, run'⟩ := Run.yields_bind.1 run'
  obtain ⟨κ₁, le, before, related, meets⟩ := hx.run meets ha hb
  obtain ⟨κ₂, le', before', result, meets⟩ := (hf κ₁ le a b related).run meets run run'
  exact ⟨κ₂, Links.le_trans le le', before.trans before', result, meets⟩

theorem imp {post' : Links → α → β → Prop} {x : Run α} {x' : Run β}
    (h : Agree S κ s s' x x' post) (weaker : ∀ κ₁, κ ≤ κ₁ → ∀ a b, post κ₁ a b → post' κ₁ a b) :
    Agree S κ s s' x x' post' := by
  constructor
  intro M M' c c' meets a b M₁ M₁' c₁ c₁' run run'
  obtain ⟨κ₁, le, before, related, meets⟩ := h.run meets run run'
  exact ⟨κ₁, le, before, weaker κ₁ le a b related, meets⟩

theorem throw_left {e : Fault} {x' : Run β} :
    Agree S κ s s' (throw e : Run α) x' post := ⟨fun _ _ _ _ _ _ _ run _ =>
  absurd run Run.not_yields_throw⟩

theorem throw_right {e : Fault} {x : Run α} :
    Agree S κ s s' x (throw e : Run β) post := ⟨fun _ _ _ _ _ _ _ _ run =>
  absurd run Run.not_yields_throw⟩

theorem lift {x : Except Fault α} {x' : Except Fault β}
    (h : ∀ a b, x = .ok a → x' = .ok b → post κ a b) :
    Agree S κ s s' (liftExcept x) (liftExcept x') post := by
  constructor
  intro M M' c c' meets a b M₁ M₁' c₁ c₁' run run'
  obtain ⟨ha, rfl, rfl⟩ := Run.yields_lift.1 run
  obtain ⟨hb, rfl, rfl⟩ := Run.yields_lift.1 run'
  exact ⟨κ, κ.le_refl, .refl _, h a b ha hb, meets⟩

theorem freshLabel : Agree S κ s s' (SinkReach.freshLabel : Run Label) SinkReach.freshLabel
    fun _ _ _ => True := by
  constructor
  intro M M' c c' meets a b M₁ M₁' c₁ c₁' run run'
  obtain ⟨-, rfl, rfl⟩ := Run.yields_freshLabel.1 run
  obtain ⟨-, rfl, rfl⟩ := Run.yields_freshLabel.1 run'
  exact ⟨κ, κ.le_refl, .relabel .., trivial, meets.relink κ.le_refl (meets.tidy.relabel ..)⟩

theorem emit {u u' : Update} (twin : TwinUpdate S κ u u') :
    Agree S κ s s' (Machine.emit u) (Machine.emit u') fun _ _ _ => True := by
  constructor
  intro M M' c c' meets a b M₁ M₁' c₁ c₁' run run'
  obtain ⟨rfl, rfl⟩ := Run.yields_modify.1 run
  obtain ⟨rfl, rfl⟩ := Run.yields_modify.1 run'
  refine ⟨κ, κ.le_refl, .refl _, trivial, { meets with pending := ?_, reserved := ?_, reserved' := ?_ }⟩
  · exact List.rel_append meets.pending (.cons twin .nil)
  · exact meets.reserved.imp_right fun h => List.mem_append_left _ h
  · exact meets.reserved'.imp_right fun h => List.mem_append_left _ h

theorem assume {a a' : Term} (twin : Plain S κ .bool a a') :
    Agree S κ s s' (Machine.assume a) (Machine.assume a') fun _ _ _ => True := emit (.constraint twin)

variable {l l' : Label} {sort : TermSort}

/-- A link between two constants makes them twins. -/
theorem twin_of_link {name name' : String} {r : Role}
    (sound : ConstLink.Sound ⟨Term.var l name sort, name', sort, r⟩) :
    Twin S (κ.addConst ⟨Term.var l name sort, name', sort, r⟩) r (Term.var l name sort)
      (Term.var l' name' sort) :=
  Twin.linked (k := ⟨Term.var l name sort, name', sort, r⟩) List.mem_cons_self sound

theorem sound_var {name name' : String} {r : Role} (valued : sort.valued = true) (suits : r.Suits sort) :
    ConstLink.Sound ⟨Term.var l name sort, name', sort, r⟩ := by
  refine ⟨?_, rfl, suits⟩
  rw [Term.var, Term.wellSorted, Bool.and_eq_true]
  exact ⟨valued, rfl⟩

theorem source?_var (name name' : String) (r : Role) :
    (⟨Term.var l name sort, name', sort, r⟩ : ConstLink).source? = some name := if_pos rfl

/-- Unknowns may be linked in any role. -/
theorem freshVar (valued : sort.valued = true) {r : Role} (suits : r.Suits sort) :
    Agree S κ s s' (Machine.freshVar l sort) (Machine.freshVar l' sort)
      fun κ₁ t t' => Twin S κ₁ r t t' ∧ t.sort = sort := by
  constructor
  intro M M' c c' meets t t' M₁ M₁' c₁ c₁' run run'
  obtain ⟨rfl, rfl, rfl⟩ := Run.yields_context.1 run
  obtain ⟨rfl, rfl, rfl⟩ := Run.yields_context.1 run'
  refine ⟨κ.addConst ⟨Term.var l (localName c.locals) sort, localName c'.locals, sort, r⟩,
    κ.le_addConst _, c.before_nextLocal, ⟨twin_of_link (sound_var valued suits), rfl⟩, meets.relink (κ.le_addConst _) ?_⟩
  exact meets.tidy.addConst c.before_nextLocal c'.before_nextLocal rfl rfl c'.not_issued_local
    c'.issued_nextLocal (sound_var valued suits) fun _ => ⟨_, source?_var .., c.not_issued_local, c.issued_nextLocal⟩

theorem freshLiteral (valued : sort.valued = true) {r : Role} (suits : r.Suits sort) :
    Agree S κ s s' (Machine.freshLiteral l sort) (Machine.freshLiteral l' sort)
      fun κ₁ t t' => Twin S κ₁ r t t' ∧ t.sort = sort := by
  constructor
  intro M M' c c' meets t t' M₁ M₁' c₁ c₁' run run'
  obtain ⟨rfl, rfl, rfl⟩ := Run.yields_context.1 run
  obtain ⟨rfl, rfl, rfl⟩ := Run.yields_context.1 run'
  refine ⟨κ.addConst ⟨Term.var l (unboundedName c.unbounded) sort, unboundedName c'.unbounded, sort, r⟩,
    κ.le_addConst _, c.before_nextUnbounded, ⟨twin_of_link (sound_var valued suits), rfl⟩, meets.relink (κ.le_addConst _) ?_⟩
  exact meets.tidy.addConst c.before_nextUnbounded c'.before_nextUnbounded rfl rfl
    c'.not_issued_unbounded c'.issued_nextUnbounded (sound_var valued suits)
    fun _ => ⟨_, source?_var .., c.not_issued_unbounded, c.issued_nextUnbounded⟩

variable {a a' : Term} {ty : Ty}

/-- Both runs register a type, whose numbers are linked. -/
theorem typed (build build' : Nat → Term) (h : ∀ κ₁, κ ≤ κ₁ → ∀ i ∈ κ₁.types,
      Plain S κ₁ .bool (build i.1) (build' i.2)) :
    Agree S κ s s' (Machine.typed fun r => (build (r.tagOf ty).1, (r.tagOf ty).2))
      (Machine.typed fun r => (build' (r.tagOf ty).1, (r.tagOf ty).2))
      fun κ₁ t t' => Plain S κ₁ .bool t t' := by
  constructor
  intro M M' c c' meets t t' M₁ M₁' c₁ c₁' run run'
  obtain ⟨rfl, rfl, rfl⟩ := Run.yields_context.1 run
  obtain ⟨rfl, rfl, rfl⟩ := Run.yields_context.1 run'
  refine ⟨κ.addType _, κ.le_addType _, ⟨Nat.le_refl _, Nat.le_refl _, Registry.le_tagOf _ ty⟩,
    h _ (κ.le_addType _) _ List.mem_cons_self,
    meets.relink (κ.le_addType _) (meets.tidy.addType ty)⟩

theorem typeConstraint (h : Pointer S κ a a') :
    Agree S κ s s' (Machine.typed fun r => r.typeConstraint l a ty)
      (Machine.typed fun r => r.typeConstraint l' a' ty) fun κ₁ t t' => Plain S κ₁ .bool t t' :=
  typed (Registry.hasTag l a) (Registry.hasTag l' a') fun _ le _ linked => (h.mono le).hasTag linked

theorem typeOrNull (h : Pointer S κ a a') :
    Agree S κ s s' (Machine.typed fun r => r.typeOrNull l a ty)
      (Machine.typed fun r => r.typeOrNull l' a' ty) fun κ₁ t t' => Plain S κ₁ .bool t t' :=
  typed (fun i => .or (l + 8) (Registry.hasTag l a i) (Registry.isNull (l + 9) a))
    (fun j => .or (l' + 8) (Registry.hasTag l' a' j) (Registry.isNull (l' + 9) a'))
    fun _ le _ linked => ((h.mono le).hasTag linked).or (h.mono le).isNull

/-- A reference of a type around two twin addresses, once their type is assumed. -/
theorem assumeTyped {x x' : Run Term} (kind : ty.isReference = true) (h : Pointer S κ a a')
    (condition : Agree S κ s s' x x' fun κ₁ t t' => Plain S κ₁ .bool t t') :
    Agree S κ s s' (do Machine.assume (← x); return .reference ty a)
      (do Machine.assume (← x'); return .reference ty a') (TwinOf S ty) := by
  refine condition.bind fun κ₁ le t t' twin => ?_
  refine (assume twin).bind fun κ₂ le' _ _ _ => ?_
  exact pure ⟨rfl, .ofPointer kind (h.mono (Links.le_trans le le'))⟩

theorem unknown (ty : Ty) : Agree S κ s s' (Machine.unknown ty) (Machine.unknown ty) (TwinOf S ty) := by
  unfold Machine.unknown
  refine freshLabel.bind fun κ₁ _ l l' _ => ?_
  cases ty with
  | void => exact pure ⟨rfl, .void⟩
  | null => exact pure ⟨rfl, .null⟩
  | ref _ | array _ =>
    refine (freshVar (r := .address) rfl rfl).bind fun κ₂ _ a a' twin => ?_
    exact assumeTyped rfl twin (typeOrNull twin)
  | boolean | byte | short | char | int | long | float | double =>
    refine (freshVar (r := .plain) rfl trivial).bind fun κ₂ _ a a' twin => ?_
    exact pure ⟨rfl, .ofPlain rfl twin⟩

/-- The machine after reserving its next address. -/
def reserve (M : Machine) : Machine :=
  { M with
    nextAddress := M.nextAddress + 1
    pending := M.pending ++ [.allocate (M.nextAddress + 1)] }

/-- Addresses that both runs reserve are linked. -/
theorem meets_reserve (h : Meets S κ s s' M M' c c') :
    Meets S (κ.addObject (M.nextAddress, M'.nextAddress)) s s' (reserve M) (reserve M') c c' where
  base := h.base
  base' := h.base'
  memory := h.memory.mono (κ.le_addObject _)
  pending := List.rel_append (h.pending.imp fun _ _ hu => hu.mono (κ.le_addObject _))
    (.cons (.allocate (Nat.succ_le_succ h.tidy.behind)) .nil)
  reserved := .inr (List.mem_append_right _ List.mem_cons_self)
  reserved' := .inr (List.mem_append_right _ List.mem_cons_self)
  tidy := h.tidy.addObject
  behind := h.behind

/-- What follows the reservation of an address in an allocation. -/
theorem yields_allocate {v : SymValue} (h : (Machine.allocate ty).Yields M c v M₁ c₁) :
    (do Machine.assume (← Machine.typed fun r =>
          r.typeConstraint (c.labels + 1) (.ofInt c.labels M.nextAddress Address.width) ty)
        return .reference ty (.ofInt c.labels M.nextAddress Address.width) : Run SymValue).Yields
      (reserve M) { c with labels := c.labels + labelBlock } v M₁ c₁ := by
  obtain ⟨_, _, _, label, h⟩ := Run.yields_bind.1 h
  obtain ⟨rfl, rfl, rfl⟩ := Run.yields_freshLabel.1 label
  obtain ⟨_, _, _, get, h⟩ := Run.yields_bind.1 h
  obtain ⟨rfl, rfl, rfl⟩ := Run.yields_get.1 get
  obtain ⟨_, _, _, advance, h⟩ := Run.yields_bind.1 h
  obtain ⟨rfl, rfl⟩ := Run.yields_modify.1 advance
  obtain ⟨_, _, _, emit, h⟩ := Run.yields_bind.1 h
  obtain ⟨rfl, rfl⟩ := Run.yields_modify.1 emit
  exact h

/-- Both runs put their next objects at linked addresses. -/
theorem allocate (kind : ty.isReference = true) :
    Agree S κ s s' (Machine.allocate ty) (Machine.allocate ty) (TwinOf S ty) := by
  constructor
  intro M M' c c' meets v v' M₁ M₁' c₁ c₁' run run'
  have linked := meets_reserve (meets.relink κ.le_refl (meets.tidy.relabel (c.labels + labelBlock)
    (c'.labels + labelBlock)))
  have pointer : Pointer S (κ.addObject (M.nextAddress, M'.nextAddress))
      (.ofInt c.labels M.nextAddress Address.width) (.ofInt c'.labels M'.nextAddress Address.width) :=
    ⟨Twin.object (o := (M.nextAddress, M'.nextAddress)) List.mem_cons_self, rfl⟩
  obtain ⟨κ₁, le, before, twin, meets⟩ := (assumeTyped kind pointer (typeConstraint pointer)).run linked
    (yields_allocate run) (yields_allocate run')
  exact ⟨κ₁, Links.le_trans (κ.le_addObject _) le, (Context.Before.relabel ..).trans before, twin, meets⟩

theorem constant (k : Constant) :
    Agree S κ s s' (Machine.constant k) (Machine.constant k) (TwinOf S k.ty) := by
  unfold Machine.constant
  refine freshLabel.bind fun κ₁ _ l l' _ => ?_
  cases k with
  | int n => exact pure ⟨rfl, .ofPlain rfl (.ofInt n (by decide) (by decide))⟩
  | long n => exact pure ⟨rfl, .ofPlain rfl (.ofInt n (by decide) (by decide))⟩
  | float bits => exact pure ⟨rfl, .ofPlain rfl (.ofFloatBits bits rfl)⟩
  | double bits => exact pure ⟨rfl, .ofPlain rfl (.ofFloatBits bits rfl)⟩
  | null => exact pure ⟨rfl, .null⟩
  | string | classLiteral =>
    refine (freshLiteral (r := .address) rfl rfl).bind fun κ₂ _ a a' twin => ?_
    exact assumeTyped rfl twin (typeConstraint twin)

theorem pendingLocal? {us us' : List Update} (hus : List.Forall₂ (TwinUpdate S κ) us us')
    (id : LocalId) : Option.Rel (TwinOf S id.ty κ) (Machine.pendingLocal? id us)
      (Machine.pendingLocal? id us') := by
  induction hus with
  | nil => exact .none
  | @cons u u' us us' hu _ ih =>
    unfold Machine.pendingLocal?
    revert ih
    cases Machine.pendingLocal? id us with
    | some v =>
      cases Machine.pendingLocal? id us' with
      | some v' => exact fun ih => ih
      | none => exact fun ih => nomatch ih
    | none =>
      cases Machine.pendingLocal? id us' with
      | some v' => exact fun ih => nomatch ih
      | none =>
        intro _
        cases hu with
        | constraint | allocate | store => exact .none
        | @bind id' v v' ty twin =>
          simp only
          split
          next same => exact .some (same ▸ ⟨ty, twin⟩)
          next => exact .none

/-- A local that both runs have bound has twin values. -/
theorem local? (id : LocalId) : Agree S κ s s' (Machine.local? id) (Machine.local? id)
    fun κ₁ o o' => (∀ v v', o = some v → o' = some v' → TwinOf S id.ty κ₁ v v') ∧
      (o = none → o' = none) := by
  constructor
  intro M M' c c' meets o o' M₁ M₁' c₁ c₁' run run'
  obtain ⟨_, _, _, get, run⟩ := Run.yields_bind.1 run
  obtain ⟨rfl, rfl, rfl⟩ := Run.yields_get.1 get
  obtain ⟨rfl, rfl, rfl⟩ := Run.yields_pure.1 run
  obtain ⟨_, _, _, get, run'⟩ := Run.yields_bind.1 run'
  obtain ⟨rfl, rfl, rfl⟩ := Run.yields_get.1 get
  obtain ⟨rfl, rfl, rfl⟩ := Run.yields_pure.1 run'
  refine ⟨κ, κ.le_refl, .refl _, ?_, meets⟩
  have gathered := pendingLocal? meets.pending id
  rw [meets.base, meets.base']
  revert gathered
  cases Machine.pendingLocal? id M₁.pending with
  | some v =>
    cases Machine.pendingLocal? id M₁'.pending with
    | none => exact fun gathered => nomatch gathered
    | some v' =>
      rintro ⟨twin⟩
      refine ⟨?_, fun none => nomatch none⟩
      rintro _ _ ⟨⟩ ⟨⟩
      exact twin
  | none =>
    cases Machine.pendingLocal? id M₁'.pending with
    | some v' => exact fun gathered => nomatch gathered
    | none => exact fun _ => ⟨fun v v' hv hv' => meets.memory.locals hv hv', meets.memory.bound⟩

theorem read {f : Field} (hf : S.fields f) (address : Pointer S κ a a') :
    Agree S κ s s' (Machine.read a f) (Machine.read a' f) (TwinOf S f.ty) := by
  refine freshLabel.bind fun κ₁ le l l' _ => ⟨?_⟩
  intro M M' c c' meets v v' M₁ M₁' c₁ c₁' run run'
  obtain ⟨_, _, _, get, run⟩ := Run.yields_bind.1 run
  obtain ⟨rfl, rfl, rfl⟩ := Run.yields_get.1 get
  obtain ⟨rfl, rfl, rfl⟩ := Run.yields_pure.1 run
  obtain ⟨_, _, _, get, run'⟩ := Run.yields_bind.1 run'
  obtain ⟨rfl, rfl, rfl⟩ := Run.yields_get.1 get
  obtain ⟨rfl, rfl, rfl⟩ := Run.yields_pure.1 run'
  refine ⟨κ₁, κ₁.le_refl, .refl _, ?_, meets⟩
  rw [meets.base, meets.base']
  obtain ⟨twin, sort⟩ := meets.memory.arrays f hf (l + 1) (l' + 1)
  have element := twin.select (l := l) (d := l') sort (address.mono le).1 address.2
  have elementSort : (Term.select l (s.memory.array (l + 1) (.ofField f)) a).sort = f.ty.sort := by
    rw [Term.select, Term.sort_binary, sort]
    rfl
  refine ⟨?_, .wrap ⟨element, elementSort⟩⟩
  unfold SymValue.wrap
  split <;> rfl

theorem addressOf {v v' : SymValue} (h : TwinValue S κ v v') (f : Field) :
    Agree S κ s s' (liftExcept (Machine.addressOf v f)) (liftExcept (Machine.addressOf v' f))
      fun κ₁ a a' => Pointer S κ₁ a a' := by
  refine lift fun a a' ha ha' => ?_
  cases h with
  | primitive => cases ha
  | reference kind fits =>
    cases ha
    cases ha'
    exact (Fits.iff_pointer kind).1 fits

theorem readField {v v' : SymValue} (h : TwinValue S κ v v') {f : Field} (hf : S.fields f) :
    Agree S κ s s' (Machine.readField v f) (Machine.readField v' f) (TwinOf S f.ty) :=
  (addressOf h f).bind fun _ _ _ _ address => read hf address

theorem readStatic {f : Field} (hf : S.fields f) :
    Agree S κ s s' (Machine.readStatic f) (Machine.readStatic f) (TwinOf S f.ty) :=
  freshLabel.bind fun _ _ _ _ _ => read hf .null

/-- A value is stored as the contents of a location. -/
theorem coerce {v v' : SymValue} (h : TwinValue S κ v v') (ty : Ty) :
    Agree S κ s s' (liftExcept (Machine.coerce l v ty)) (liftExcept (Machine.coerce l' v' ty))
      fun κ₁ a a' => Fits S κ₁ ty a a' := by
  refine lift fun a a' ha ha' => ?_
  cases h with
  | primitive kind fits =>
    by_cases primitive : ty.isPrimitive = true
    · simp only [Machine.coerce, primitive, if_true] at ha ha'
      have plain := ((Fits.iff_plain kind).1 fits).cast ha ha'
      exact (Fits.iff_plain (Ty.isReference_of_isPrimitive primitive)).2 plain
    · simp only [Machine.coerce, primitive, Bool.false_eq_true, if_false, reduceCtorEq] at ha
  | reference kind fits =>
    by_cases reference : ty.isReference = true
    · simp only [Machine.coerce, reference, if_true, Except.ok.injEq] at ha ha'
      subst ha ha'
      exact (Fits.iff_pointer reference).2 ((Fits.iff_pointer kind).1 fits)
    · simp only [Machine.coerce, reference, Bool.false_eq_true, if_false, reduceCtorEq] at ha

theorem write {f : Field} (hf : S.fields f) (address : Pointer S κ a a') {v v' : SymValue}
    (h : TwinValue S κ v v') :
    Agree S κ s s' (Machine.write a f v) (Machine.write a' f v') fun _ _ _ => True := by
  refine freshLabel.bind fun κ₁ le l l' _ => ?_
  refine (coerce (h.mono le) f.ty).bind fun κ₂ le' e e' fits => ?_
  exact emit (.store hf (address.mono (Links.le_trans le le')) fits)

theorem writeField {f : Field} (hf : S.fields f) {b b' v v' : SymValue} (hb : TwinValue S κ b b')
    (h : TwinValue S κ v v') :
    Agree S κ s s' (Machine.writeField b f v) (Machine.writeField b' f v') fun _ _ _ => True :=
  (addressOf hb f).bind fun _ le _ _ address => write hf address (h.mono le)

theorem writeStatic {f : Field} (hf : S.fields f) {v v' : SymValue} (h : TwinValue S κ v v') :
    Agree S κ s s' (Machine.writeStatic f v) (Machine.writeStatic f v') fun _ _ _ => True :=
  freshLabel.bind fun _ le _ _ _ => write hf .null (h.mono le)

theorem promote {ty : Ty} {t t' : Term} (h : Plain S κ ty.sort a a')
    (ht : Machine.promote l ty a = .ok t) (ht' : Machine.promote l' ty a' = .ok t') :
    ∃ u, Plain S κ u t t' := by
  unfold Machine.promote at ht ht'
  split at ht
  next char =>
    rw [if_pos char] at ht'
    subst char
    exact ⟨_, h.cast ht ht'⟩
  next char =>
    rw [if_neg char] at ht'
    cases ht
    cases ht'
    exact ⟨_, h⟩

theorem result {t t' u u' : Term} (h : Twin S κ .plain t t') (primitive : ty.isPrimitive = true)
    (hu : Machine.fitted l t ty = .ok u) (hu' : Machine.fitted l' t' ty = .ok u') : Plain S κ ty.sort u u' := by
  unfold Machine.fitted at hu hu'
  rw [← h.sort] at hu'
  by_cases same : t.sort = ty.sort
  · simp only [same, ne_eq, not_true_eq_false, and_false, if_false, Except.ok.injEq] at hu hu'
    subst hu hu'
    exact ⟨h, same⟩
  · simp only [primitive, same, ne_eq, not_false_eq_true, and_self, if_true] at hu hu'
    exact (Plain.of_twin h).convert ty.sort_valued hu hu'

/-- Operators are applied to two primitive values or ask whether two references are the same. -/
theorem operate {v v' w w' : SymValue} {op : Operator} (hv : TwinValue S κ v v')
    (hw : TwinValue S κ w w') (primitive : ty.isPrimitive = true)
    (equality : v.ty.isReference = true → w.ty.isReference = true → op.isEquality = true) :
    Agree S κ s s' (liftExcept (Machine.operate l op v w ty))
      (liftExcept (Machine.operate l' op v' w' ty)) (TwinOf S ty) := by
  refine lift fun u u' hu hu' => ?_
  rw [Machine.operate_eq] at hu hu'
  obtain ⟨t, ht, hu⟩ := except_bind_ok.1 hu
  obtain ⟨r, hr, hu⟩ := except_bind_ok.1 hu
  obtain ⟨t', ht', hu'⟩ := except_bind_ok.1 hu'
  obtain ⟨r', hr', hu'⟩ := except_bind_ok.1 hu'
  cases hu
  cases hu'
  have kind := Ty.isReference_of_isPrimitive primitive
  suffices twin : Twin S κ .plain t t' from ⟨rfl, .ofPlain kind (result twin primitive hr hr')⟩
  cases hv with
  | primitive kv fv =>
    cases hw with
    | primitive kw fw =>
      obtain ⟨x, hx, ht⟩ := except_bind_ok.1 ht
      obtain ⟨y, hy, ht⟩ := except_bind_ok.1 ht
      obtain ⟨x', hx', ht'⟩ := except_bind_ok.1 ht'
      obtain ⟨y', hy', ht'⟩ := except_bind_ok.1 ht'
      obtain ⟨_, hx⟩ := promote ((Fits.iff_plain kv).1 fv) hx hx'
      obtain ⟨_, hy⟩ := promote ((Fits.iff_plain kw).1 fw) hy hy'
      exact hx.operator hy ht ht'
    | reference => cases ht
  | reference kv fv =>
    cases hw with
    | primitive => cases ht
    | reference kw fw =>
      exact (((Fits.iff_pointer kv).1 fv).equality ((Fits.iff_pointer kw).1 fw) (equality kv kw)
        ht ht').1

theorem binary {v v' w w' : SymValue} {op : Operator} (hv : TwinValue S κ v v')
    (hw : TwinValue S κ w w') (primitive : ty.isPrimitive = true)
    (equality : v.ty.isReference = true → w.ty.isReference = true → op.isEquality = true) :
    Agree S κ s s' (Machine.binary op v w ty) (Machine.binary op v' w' ty) (TwinOf S ty) :=
  freshLabel.bind fun _ le _ _ _ => operate (hv.mono le) (hw.mono le) primitive equality

theorem negate {v v' : SymValue} (h : TwinValue S κ v v') :
    Agree S κ s s' (Machine.negate v) (Machine.negate v') (TwinOf S v.ty) := by
  refine freshLabel.bind fun κ₁ le l l' _ => ?_
  cases h with
  | @primitive source a a' kind fits =>
    have negated : Agree S κ₁ s s' (liftExcept (Operator.negate l a)) (liftExcept (Operator.negate l' a'))
        fun κ₂ => Plain S κ₂ source.sort := lift fun t t' ht ht' =>
      (((Fits.iff_plain kind).1 fits).mono le).negate ht ht'
    exact negated.bind fun κ₂ le' t t' plain => pure ⟨rfl, .ofPlain kind plain⟩
  | reference => exact throw_left

theorem cast {v v' : SymValue} (h : TwinValue S κ v v') (ty : Ty) :
    Agree S κ s s' (Machine.cast v ty) (Machine.cast v' ty) (TwinOf S ty) := by
  unfold Machine.cast
  rw [h.ty_eq]
  split
  next same => exact pure ⟨same, h⟩
  next =>
    cases h with
    | @primitive source a a' kind fits =>
      simp only
      split
      next primitive =>
        refine freshLabel.bind fun κ₁ le l l' _ => ?_
        have converted : Agree S κ₁ s s' (liftExcept (a.cast l source ty))
            (liftExcept (a'.cast l' source ty)) fun κ₂ => Plain S κ₂ ty.sort := lift fun t t' ht ht' =>
          (((Fits.iff_plain kind).1 fits).mono le).cast ht ht'
        exact converted.bind fun κ₂ le' t t' plain =>
          pure ⟨rfl, .ofPlain (Ty.isReference_of_isPrimitive primitive) plain⟩
      next => exact unknown ty
    | reference => exact unknown ty

theorem declaredAs {v v' : SymValue} (h : TwinValue S κ v v') (ty : Ty) :
    Agree S κ s s' (Machine.declaredAs v ty) (Machine.declaredAs v' ty) (TwinOf S ty) := by
  cases h with
  | primitive kind fits => exact cast (.primitive kind fits) ty
  | @reference source a a' kind fits =>
    unfold Machine.declaredAs
    simp only
    split
    next reference => exact pure ⟨rfl, .ofPointer reference.1 ((Fits.iff_pointer kind).1 fits)⟩
    next => exact cast (.reference kind fits) ty

theorem condition {v v' : SymValue} (h : TwinValue S κ v v') :
    Agree S κ s s' (liftExcept (Machine.condition v)) (liftExcept (Machine.condition v'))
      fun κ₁ t t' => Plain S κ₁ .bool t t' := by
  refine lift fun t t' ht ht' => ?_
  cases h with
  | primitive kind fits =>
    unfold Machine.condition at ht ht'
    simp only at ht ht'
    split at ht
    next isBool =>
      split at ht'
      next =>
        cases ht
        cases ht'
        exact ⟨((Fits.iff_plain kind).1 fits).1, isBool⟩
      next => cases ht'
    next => cases ht
  | reference => cases ht

end Agree
end SinkReach
