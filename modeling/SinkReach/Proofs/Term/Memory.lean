import SinkReach.Proofs.Stateful
import SinkReach.Proofs.Term.Denotation
import SinkReach.Term.Memo

/-!
Remembering values changes no answer. A value kept for one node counts for every node of the same
structure, because a term's value does not depend on labels; errors are never kept.
-/
namespace SinkReach.Term

/-- Every remembered value is the value of the term it was kept for. -/
def Memory.Sound (env : Assignment) (memory : Memory) : Prop :=
  ∀ (l : Label) (t : Term) (v : Value), memory[l]? = some (t, v) → t.eval env = .ok v

theorem Memory.sound_empty (env : Assignment) : Memory.Sound env {} := by
  intro l t v h
  simp at h

theorem Memory.Sound.insert {env : Assignment} {memory : Memory} (h : memory.Sound env)
    {t : Term} {v : Value} (ht : t.eval env = .ok v) :
    Memory.Sound env (memory.insert t.label (t, v)) := by
  intro l u w hu
  rw [Std.HashMap.getElem?_insert] at hu
  split at hu
  · cases hu
    exact ht
  · exact h l u w hu

section Answers

variable {I : Memory → Prop}

/-- The computation answers `r` and keeps what holds of the memory. -/
def Answers (I : Memory → Prop) (x : Remembering α) (r : Outcome α) : Prop :=
  ∀ memory : Memory, I memory → ∃ memory' : Memory, I memory' ∧ x.run.run memory = (r, memory')

theorem Answers.lift (r : Outcome α) : Answers I (liftExcept r) r :=
  fun memory h => ⟨memory, h, by cases r <;> rfl⟩

theorem Answers.pure (a : α) : Answers I (pure a) (.ok a) :=
  fun memory h => ⟨memory, h, rfl⟩

theorem Answers.bind {x : Remembering α} {r : Outcome α} {f : α → Remembering β} {g : α → Outcome β}
    (hx : Answers I x r) (hf : ∀ a, Answers I (f a) (g a)) : Answers I (x >>= f) (r >>= g) := by
  intro memory h
  obtain ⟨memory', h', run⟩ := hx memory h
  have step := run_bind x f memory
  rw [run] at step
  cases r with
  | ok a =>
    obtain ⟨memory'', h'', run'⟩ := hf a memory' h'
    exact ⟨memory'', h'', step.trans run'⟩
  | error e => exact ⟨memory', h', step⟩

/-- What is computed for a term that memory does not know is kept there. -/
def recompute (t : Term) (compute : Remembering Value) : Remembering Value := do
  let v ← compute
  modify (·.insert t.label (t, v))
  return v

/-- It may be kept if what holds of the memory still holds then. -/
theorem Answers.recompute {env : Assignment} {t : Term} {compute : Remembering Value}
    (insert : ∀ (memory : Memory) (v : Value), I memory → t.eval env = .ok v → I (memory.insert t.label (t, v)))
    (h : Answers I compute (t.eval env)) : Answers I (recompute t compute) (t.eval env) := by
  intro memory sound
  obtain ⟨memory', sound', run⟩ := h memory sound
  have step := run_bind compute (fun v => do modify (·.insert t.label (t, v)); return v) memory
  rw [run] at step
  cases value : t.eval env with
  | ok v =>
    rw [value] at step
    exact ⟨_, insert memory' v sound' value, step⟩
  | error e =>
    rw [value] at step
    exact ⟨_, sound', step⟩

end Answers

theorem run_remember (t : Term) (compute : Remembering Value) (memory : Memory) :
    (remember t compute).run.run memory =
      match memory[t.label]? with
      | some (u, v) => if u.same t then (.ok v, memory) else (recompute t compute).run.run memory
      | none => (recompute t compute).run.run memory := by
  have start : (get : Remembering Memory).run.run memory = (.ok memory, memory) := rfl
  rw [remember, run_bind, start]
  simp only
  cases memory[t.label]? with
  | none => rfl
  | some kept =>
    obtain ⟨u, v⟩ := kept
    simp only
    cases u.same t <;> rfl

theorem Answers.remember {env : Assignment} {t : Term} {compute : Remembering Value}
    (h : Answers (Memory.Sound env) compute (t.eval env)) :
    Answers (Memory.Sound env) (remember t compute) (t.eval env) := by
  have computed : Answers (Memory.Sound env) (Term.recompute t compute) (t.eval env) :=
    h.recompute fun _ _ sound value => sound.insert value
  intro memory sound
  rw [run_remember]
  cases found : memory[t.label]? with
  | none => exact computed memory sound
  | some kept =>
    obtain ⟨u, v⟩ := kept
    simp only
    split
    next same =>
      have value : t.value? env = some v := by
        rw [← value?_of_alike env ((same_eq_alike u t).symm.trans same)]
        exact value?_eq_some.2 (sound _ u v found)
      exact ⟨memory, sound, by rw [value?_eq_some.1 value]⟩
    next => exact computed memory sound

mutual

/-- Evaluation with a rule for how the value of a node that is no leaf is found in memory and kept there. -/
def evalBy (keep : Term → Remembering Value → Remembering Value) (env : Assignment) : Term → Remembering Value
  | leaf _ atom => liftExcept (atom.eval env)
  | t@(unary _ op a) => keep t do
    let v ← a.evalBy keep env
    liftExcept (op.apply t a v)
  | t@(binary _ .select a b) => keep t do
    let w ← b.evalBy keep env
    let v ← a.evalBy keep env
    liftExcept (BinaryOp.select.apply t a b v w)
  | t@(binary _ op a b) => keep t do
    let v ← a.evalBy keep env
    liftExcept (op.precheck a v)
    let w ← b.evalBy keep env
    liftExcept (op.apply t a b v w)
  | t@(ternary _ .ite c a b) => keep t do
    let v ← c.evalBy keep env
    if ← liftExcept (v.toBool c) then a.evalBy keep env else b.evalBy keep env
  | t@(ternary _ .store a i e) => keep t do
    let index ← i.evalBy keep env
    let element ← e.evalBy keep env
    let array ← a.evalBy keep env
    liftExcept (storeValue t array index element)
  | t@(junction _ op items) => keep t do
    return .bool (← evalItemsBy keep env op.absorbing items)

@[inherit_doc evalBy]
def evalItemsBy (keep : Term → Remembering Value → Remembering Value) (env : Assignment) (absorbing : Bool) :
    List Term → Remembering Bool
  | [] => return !absorbing
  | t :: ts => do
    let v ← t.evalBy keep env
    let b ← liftExcept (v.toBool t)
    if b = absorbing then return absorbing else evalItemsBy keep env absorbing ts

end

mutual

theorem recallValue_eq (env : Assignment) : (t : Term) → t.recallValue env = t.evalBy remember env
  | leaf _ _ => rfl
  | unary _ op a => by rw [recallValue, evalBy, recallValue_eq env a]
  | binary _ op a b => by
    by_cases h : op = .select
    · subst h
      rw [recallValue, evalBy, recallValue_eq env a, recallValue_eq env b]
    · rw [recallValue.eq_4 _ _ _ _ _ h, evalBy.eq_4 _ _ _ _ _ _ h, recallValue_eq env a, recallValue_eq env b]
  | ternary _ .ite c a b => by
    rw [recallValue, evalBy, recallValue_eq env c, recallValue_eq env a, recallValue_eq env b]
  | ternary _ .store a i e => by
    rw [recallValue, evalBy, recallValue_eq env a, recallValue_eq env i, recallValue_eq env e]
  | junction _ op items => by rw [recallValue, evalBy, recallItems_eq env op.absorbing items]

theorem recallItems_eq (env : Assignment) (absorbing : Bool) : (ts : List Term) →
    recallItems env absorbing ts = evalItemsBy remember env absorbing ts
  | [] => rfl
  | t :: ts => by rw [recallItems, evalItemsBy, recallValue_eq env t, recallItems_eq env absorbing ts]

end

section Rule

variable {I : Memory → Prop} {keep : Term → Remembering Value → Remembering Value} {env : Assignment}

theorem answers_evalItemsBy {absorbing : Bool} {items : List Term}
    (h : ∀ t ∈ items, Answers I (t.evalBy keep env) (t.eval env)) :
    Answers I (evalItemsBy keep env absorbing items) (evalItems env absorbing items) := by
  induction items with
  | nil =>
    rw [evalItemsBy, evalItems]
    exact .pure _
  | cons t ts ih =>
    obtain ⟨ht, hts⟩ := List.forall_mem_cons.1 h
    rw [evalItemsBy, evalItems]
    refine ht.bind fun v => (Answers.lift _).bind fun b => ?_
    split
    · exact .pure _
    · exact ih hts

/-- Evaluation by a rule answers as evaluation without memory, if the rule does so for a node and all below it. -/
theorem answers_evalBy {P : Term → Prop} (operand : ∀ t, P t → ∀ c ∈ t.children, P c)
    (kept : ∀ t, P t → ∀ compute, Answers I compute (t.eval env) → Answers I (keep t compute) (t.eval env))
    (t : Term) : P t → Answers I (t.evalBy keep env) (t.eval env) := by
  induction t with
  | leaf l a =>
    intro _
    rw [evalBy, eval]
    exact .lift _
  | unary l op a iha =>
    intro h
    have ha := iha (operand _ h a (List.mem_singleton_self a))
    rw [evalBy]
    refine kept _ h _ ?_
    rw [eval]
    exact ha.bind fun v => .lift _
  | binary l op a b iha ihb =>
    intro h
    have ha := iha (operand _ h a (by simp [children]))
    have hb := ihb (operand _ h b (by simp [children]))
    by_cases select : op = .select
    · subst select
      rw [evalBy]
      refine kept _ h _ ?_
      rw [eval]
      exact hb.bind fun w => ha.bind fun v => .lift _
    · rw [evalBy.eq_4 _ _ _ _ _ _ select]
      refine kept _ h _ ?_
      rw [eval.eq_4 _ _ _ _ _ select]
      exact ha.bind fun v => (Answers.lift _).bind fun _ => hb.bind fun w => .lift _
  | ternary l op a b c iha ihb ihc =>
    intro h
    have ha := iha (operand _ h a (by simp [children]))
    have hb := ihb (operand _ h b (by simp [children]))
    have hc := ihc (operand _ h c (by simp [children]))
    cases op with
    | ite =>
      rw [evalBy]
      refine kept _ h _ ?_
      rw [eval]
      refine ha.bind fun v => (Answers.lift _).bind fun holds => ?_
      cases holds with
      | true => exact hb
      | false => exact hc
    | store =>
      rw [evalBy]
      refine kept _ h _ ?_
      rw [eval]
      exact hb.bind fun k => hc.bind fun e => ha.bind fun x => .lift _
  | junction l op items ih =>
    intro h
    rw [evalBy]
    refine kept _ h _ ?_
    rw [eval]
    exact (answers_evalItemsBy fun t mem => ih t mem (operand _ h t mem)).bind fun b => .pure _

end Rule

/-- Evaluation with memory answers as evaluation without. -/
theorem answers_recallValue (env : Assignment) (t : Term) :
    Answers (Memory.Sound env) (t.recallValue env) (t.eval env) := by
  rw [recallValue_eq]
  exact answers_evalBy (P := fun _ => True) (fun _ _ _ _ => trivial) (fun _ _ _ => Answers.remember) t trivial

theorem answers_recallBool (env : Assignment) (t : Term) :
    Answers (Memory.Sound env) (t.recallBool env) (t.evalBool env) :=
  (answers_recallValue env t).bind fun _ => .lift _

theorem evalShared_eq_eval (env : Assignment) (t : Term) : t.evalShared env = t.eval env := by
  obtain ⟨memory, _, run⟩ := answers_recallValue env t {} (Memory.sound_empty env)
  exact congrArg Prod.fst run

end SinkReach.Term
