import SinkReach.Proofs.Term.Memory
import SinkReach.Proofs.Term.Nodes

/-!
Evaluators that are asked again and again. What a request leaves in memory, whether it succeeds or not, serves
the requests after it, and all of them are answered as if each had been evaluated on its own. An evaluator that
compares no structure and goes by labels alone answers alike, as long as no label stands for two of the nodes
that exist at the same time: those below the request and those that memory holds.
-/
namespace SinkReach.Term

/-- A request to an evaluator, for the value of a term or for its truth value. -/
inductive Request where
  | value (t : Term)
  | truth (t : Term)

/-- Answers with what is kept under the label, whatever node it was kept for, or computes and remembers. -/
def trust (t : Term) (compute : Remembering Value) : Remembering Value := do
  match (← get)[t.label]? with
  | some (_, v) => return v
  | none => recompute t compute

namespace Request

def term : Request → Term
  | value t | truth t => t

/-- The answer of an evaluation of its own, without memory. -/
def plain (env : Assignment) : Request → Outcome (Value ⊕ Bool)
  | value t => return .inl (← t.eval env)
  | truth t => return .inr (← t.evalBool env)

/-- The answer of an evaluator that remembers. -/
def recalled (env : Assignment) : Request → Remembering (Value ⊕ Bool)
  | value t => return .inl (← t.recallValue env)
  | truth t => return .inr (← t.recallBool env)

/-- The answer of an evaluator that remembers and goes by labels alone. -/
def trusting (env : Assignment) : Request → Remembering (Value ⊕ Bool)
  | value t => return .inl (← t.evalBy trust env)
  | truth t => return .inr (← t.evalBy trust env >>= fun v => liftExcept (v.toBool t))

end Request

/-- Answers to requests that are put to one evaluator one after the other; it goes on after errors. -/
def answers (ask : Request → Remembering (Value ⊕ Bool)) (requests : List Request) :
    StateM Memory (List (Outcome (Value ⊕ Bool))) :=
  requests.mapM fun r => (ask r).run

variable {env : Assignment} {ask : Request → Remembering (Value ⊕ Bool)} {requests : List Request}
  {roots : List Term} {t : Term} {memory : Memory}

/-- The first request is answered, and then the others with what it left in memory. -/
theorem run_answers_cons (ask : Request → Remembering (Value ⊕ Bool)) (r : Request) (rs : List Request)
    (memory : Memory) : ((answers ask (r :: rs)).run memory).1 = ((ask r).run.run memory).1 ::
      ((answers ask rs).run ((ask r).run.run memory).2).1 := by
  rw [answers, List.mapM_cons]
  rfl

/-- An evaluator of which each single answer is right is right all along. -/
theorem run_answers {I : Memory → Prop} (each : ∀ r ∈ requests, Answers I (ask r) (r.plain env)) (h : I memory) :
    ((answers ask requests).run memory).1 = requests.map (·.plain env) := by
  induction requests generalizing memory with
  | nil => rfl
  | cons r rs ih =>
    obtain ⟨first, rest⟩ := List.forall_mem_cons.1 each
    obtain ⟨memory', h', run⟩ := first memory h
    rw [run_answers_cons, run, List.map_cons]
    exact congrArg _ (ih rest h')

theorem Request.answers_recalled (env : Assignment) (r : Request) :
    Answers (Memory.Sound env) (r.recalled env) (r.plain env) := by
  cases r with
  | value t => exact (answers_recallValue env t).bind fun _ => .pure _
  | truth t => exact (answers_recallBool env t).bind fun _ => .pure _

/-- Terms that memory holds. -/
def Memory.terms (memory : Memory) : List Term := memory.toList.map (·.2.1)

/-- Memory holds values of nodes below the roots, each under the label of its node. -/
def Memory.Holds (env : Assignment) (roots : List Term) (memory : Memory) : Prop :=
  ∀ (l : Label) (t : Term) (v : Value), memory[l]? = some (t, v) →
    t.eval env = .ok v ∧ t.label = l ∧ Below roots t

theorem Memory.Holds.empty : Memory.Holds env roots {} := by
  intro l t v h
  simp at h

theorem Memory.Holds.insert (h : memory.Holds env roots) (below : Below roots t) {v : Value}
    (value : t.eval env = .ok v) : Memory.Holds env roots (memory.insert t.label (t, v)) := by
  intro l u w found
  rw [Std.HashMap.getElem?_insert] at found
  split at found
  next same =>
    cases found
    exact ⟨value, beq_iff_eq.1 same, below⟩
  next => exact h l u w found

/-- What memory holds is below what it holds, and below any roots beside. -/
theorem Memory.Holds.own (h : memory.Holds env roots) (t : Term) : memory.Holds env (t :: memory.terms) := by
  intro l u v found
  obtain ⟨value, label, -⟩ := h l u v found
  have held : u ∈ memory.terms :=
    List.mem_map.2 ⟨(l, u, v), Std.HashMap.mem_toList_iff_getElem?_eq_some.2 found, rfl⟩
  exact ⟨value, label, .root (List.mem_cons_of_mem t held)⟩

/-- Where labels are not shared, what is kept under the label of a node was kept for that node. -/
theorem Answers.trust {compute : Remembering Value} (labelled : Labelled roots) (below : Below roots t)
    (h : Answers (Memory.Holds env roots) compute (t.eval env)) :
    Answers (Memory.Holds env roots) (trust t compute) (t.eval env) := by
  have computed : Answers (Memory.Holds env roots) (Term.recompute t compute) (t.eval env) :=
    h.recompute fun _ _ holds value => holds.insert below value
  intro memory holds
  have start : (get : Remembering Memory).run.run memory = (.ok memory, memory) := rfl
  rw [Term.trust, run_bind, start]
  simp only
  cases found : memory[t.label]? with
  | none => exact computed memory holds
  | some kept =>
    obtain ⟨u, v⟩ := kept
    obtain ⟨value, label, held⟩ := holds _ u v found
    obtain rfl := labelled u t held below label
    exact ⟨memory, holds, by rw [value]; rfl⟩

theorem answers_evalBy_trust (labelled : Labelled roots) (below : Below roots t) :
    Answers (Memory.Holds env roots) (t.evalBy trust env) (t.eval env) :=
  answers_evalBy (fun _ below _ child => below.operand child) (fun _ below _ => Answers.trust labelled below) t below

theorem Request.answers_trusting (labelled : Labelled roots) (r : Request) (below : Below roots r.term) :
    Answers (Memory.Holds env roots) (r.trusting env) (r.plain env) := by
  cases r with
  | value t => exact (answers_evalBy_trust labelled below).bind fun _ => .pure _
  | truth t => exact ((answers_evalBy_trust labelled below).bind fun _ => .lift _).bind fun _ => .pure _

/-- Whenever an evaluator that goes by labels alone is asked, no label stands for two nodes among those below
the request and those that memory holds. -/
def Identified (env : Assignment) : List Request → Memory → Prop
  | [], _ => True
  | r :: rs, memory => Labelled (r.term :: memory.terms) ∧ Identified env rs ((r.trusting env).run.run memory).2

theorem run_answers_trusting (holds : memory.Holds env roots) (identified : Identified env requests memory) :
    ((answers (·.trusting env) requests).run memory).1 = requests.map (·.plain env) := by
  induction requests generalizing memory roots with
  | nil => rfl
  | cons r rs ih =>
    obtain ⟨labelled, rest⟩ := identified
    obtain ⟨memory', holds', run⟩ :=
      r.answers_trusting labelled (.root List.mem_cons_self) memory (holds.own r.term)
    rw [run] at rest
    rw [run_answers_cons, run, List.map_cons]
    exact congrArg _ (ih holds' rest)

theorem Labelled.mono {roots' : List Term} (labelled : Labelled roots) (h : ∀ t ∈ roots', Below roots t) :
    Labelled roots' := by
  have below {t : Term} (inside : Below roots' t) : Below roots t := by
    induction inside with
    | root mem => exact h _ mem
    | operand _ child ih => exact ih.operand child
  exact fun s t hs ht same => labelled s t (below hs) (below ht) same

/-- Requests for nodes of one labelled family are told apart by labels from first to last. -/
theorem Labelled.identified (labelled : Labelled roots) (inside : ∀ r ∈ requests, Below roots r.term)
    (holds : memory.Holds env roots) : Identified env requests memory := by
  induction requests generalizing memory with
  | nil => trivial
  | cons r rs ih =>
    obtain ⟨first, rest⟩ := List.forall_mem_cons.1 inside
    obtain ⟨memory', holds', run⟩ := r.answers_trusting labelled first memory holds
    refine ⟨labelled.mono (List.forall_mem_cons.2 ⟨first, fun u mem => ?_⟩), run ▸ ih rest holds'⟩
    obtain ⟨⟨l, u, v⟩, kept, rfl⟩ := List.mem_map.1 mem
    exact (holds l u v (Std.HashMap.mem_toList_iff_getElem?_eq_some.1 kept)).2.2

/-- Memory is transparent. Whatever requests are put to one evaluator, each is answered, by a value or an
error, as it is without memory; and so it is by labels alone, as long as these identify the nodes at hand. -/
theorem answers_transparent (env : Assignment) (requests : List Request) :
    ((answers (·.recalled env) requests).run {}).1 = requests.map (·.plain env) ∧
    (Identified env requests {} →
      ((answers (·.trusting env) requests).run {}).1 = requests.map (·.plain env)) := by
  have holds : Memory.Holds env [] {} := .empty
  exact ⟨run_answers (fun r _ => r.answers_recalled env) (Memory.sound_empty env), run_answers_trusting holds⟩

section Again

/-- A sum that has a value, one of it and an unbound constant, and a disjunction that is decided before it
comes to the latter. -/
def sumOfBound : Term := .binary 2 (.bits .add) (.leaf 0 (.var "x" (.bitVec 32))) (.leaf 1 (.bitVec 1 32))

@[inherit_doc sumOfBound]
def sumOfUnbound : Term := .binary 4 (.bits .add) sumOfBound (.leaf 3 (.var "y" (.bitVec 32)))

@[inherit_doc sumOfBound]
def decidedEarly : Term :=
  .junction 8 .or
    [.binary 6 (.compare .slt) sumOfBound (.leaf 5 (.bitVec 10 32)), .binary 7 .eq sumOfUnbound sumOfBound]

/-- Requests that fail before, between and after others that share nodes with them. -/
def again : List Request :=
  [.value sumOfUnbound, .truth decidedEarly, .truth sumOfBound, .value sumOfBound, .value sumOfUnbound,
    .truth decidedEarly]

theorem answers_transparent_again :
    let env : Assignment := .ofList [("x", .bitVec 3 32)]
    Identified env again {} ∧ ((answers (·.trusting env) again).run {}).1 =
      [.error (.unbound "y"), .ok (.inr true), .error (.illSorted sumOfBound), .ok (.inl (.bitVec 4 32)),
        .error (.unbound "y"), .ok (.inr true)] := by
  intro env
  have labelled : Labelled [decidedEarly] := by
    refine Labelled.of_closed [.leaf 0 (.var "x" (.bitVec 32)), .leaf 1 (.bitVec 1 32), sumOfBound,
      .leaf 3 (.var "y" (.bitVec 32)), sumOfUnbound, .leaf 5 (.bitVec 10 32),
      .binary 6 (.compare .slt) sumOfBound (.leaf 5 (.bitVec 10 32)), .binary 7 .eq sumOfUnbound sumOfBound,
      decidedEarly] ?_ ?_ (by decide)
    · simp
    · simp [children, decidedEarly, sumOfUnbound, sumOfBound]
  have early : Below [decidedEarly] decidedEarly := .root (List.mem_singleton_self _)
  have equation : Below [decidedEarly] (.binary 7 .eq sumOfUnbound sumOfBound) :=
    early.operand (by simp [children, decidedEarly])
  have unbound : Below [decidedEarly] sumOfUnbound := equation.operand (by simp [children])
  have bound : Below [decidedEarly] sumOfBound := equation.operand (by simp [children])
  have inside : ∀ r ∈ again, Below [decidedEarly] r.term := by
    simp [again, Request.term, early, unbound, bound]
  have identified : Identified env again {} := labelled.identified inside Memory.Holds.empty
  exact ⟨identified, (answers_transparent env again).2 identified⟩

end Again
end SinkReach.Term
