import SinkReach.Analysis.Search
import SinkReach.Proofs.Simulation.Effect

/-!
Runs that follow a single path and never merge states, and the scenes in which the merged states of a
search are compared with them.
-/
namespace SinkReach

/-- The worlds and states of the runs that start at the entry of a method, follow one path, and stop at
the sink. -/
inductive Unmerged (q : Query) (m : Method) (limit : Nat) : World → ExecState → Prop
  | start {entry : Node} {calls : Instances ExecState} :
    (Instances.enter q m).run.run .empty = (.ok entry, calls) →
    Unmerged q m limit ⟨calls, {}⟩ (.initial entry)
  | step {w w' : World} {x y : ExecState} {following : List ExecState} : Unmerged q m limit w x →
    q.path.isSink x.node.method x.node.instr = false →
    (x.next q limit).run.run w = (.ok following, w') → y ∈ following → Unmerged q m limit w' y

namespace Unmerged

variable {q : Query} {m : Method} {limit : Nat} {w : World} {x : ExecState}

/-- The runs that go on from one by a step; none does from the sink, or where the step fails. -/
def goOn (q : Query) (limit : Nat) (r : World × ExecState) : List (World × ExecState) :=
  if q.path.isSink r.2.node.method r.2.node.instr then []
  else
    match (r.2.next q limit).run.run r.1 with
    | (.ok following, w) => following.map fun y => (w, y)
    | (.error _, _) => []

/-- The runs of a number of steps. -/
def runs (q : Query) (m : Method) (limit : Nat) : Nat → List (World × ExecState)
  | 0 =>
    match (Instances.enter q m).run.run .empty with
    | (.ok entry, calls) => [(⟨calls, {}⟩, .initial entry)]
    | (.error _, _) => []
  | n + 1 => (runs q m limit n).flatMap (goOn q limit)

theorem exists_mem_runs (h : Unmerged q m limit w x) : ∃ n, (w, x) ∈ runs q m limit n := by
  induction h with
  | start enter =>
    refine ⟨0, ?_⟩
    rw [runs, enter]
    exact List.mem_singleton_self _
  | step _ notSink next mem ih =>
    obtain ⟨n, here⟩ := ih
    refine ⟨n + 1, List.mem_flatMap.2 ⟨_, here, ?_⟩⟩
    rw [goOn, notSink, next]
    exact List.mem_map_of_mem mem

theorem of_mem_runs {n : Nat} (h : (w, x) ∈ runs q m limit n) : Unmerged q m limit w x := by
  induction n generalizing w x with
  | zero =>
    unfold runs at h
    split at h
    next enter =>
      cases List.mem_singleton.1 h
      exact .start enter
    next => cases h
  | succ n ih =>
    obtain ⟨⟨w₀, x₀⟩, before, h⟩ := List.mem_flatMap.1 h
    unfold goOn at h
    split at h
    · cases h
    next notSink =>
      split at h
      next next =>
        obtain ⟨y, mem, eq⟩ := List.mem_map.1 h
        cases eq
        exact .step (ih before) (eq_false_of_ne_true notSink) next mem
      next => cases h

theorem runs_eq_nil {n k : Nat} (ended : runs q m limit n = []) (le : n ≤ k) : runs q m limit k = [] := by
  induction le with
  | refl => exact ended
  | step _ ih => rw [runs, ih, List.flatMap_nil]

/-- Whether all runs come to an end in fewer than `n` steps and pass a test. -/
def always (q : Query) (m : Method) (limit n : Nat) (test : World × ExecState → Bool) : Bool :=
  (runs q m limit n).isEmpty && (List.range n).all fun k => (runs q m limit k).all test

theorem of_always {n : Nat} {test : World × ExecState → Bool} (h : always q m limit n test = true)
    (run : Unmerged q m limit w x) : test (w, x) = true := by
  obtain ⟨ended, each⟩ := Bool.and_eq_true_iff.1 h
  obtain ⟨k, mem⟩ := run.exists_mem_runs
  have early : k < n := by
    refine Nat.lt_of_not_le fun le => ?_
    rw [runs_eq_nil (List.isEmpty_iff.1 ended) le] at mem
    cases mem
  exact List.all_eq_true.1 (List.all_eq_true.1 each k (List.mem_range.2 early)) _ mem

end Unmerged

/-- Call-free bodies whose operators and fields keep to the types. -/
structure Body.Disciplined (b : Body) : Prop where
  callFree : b.callFree = true
  fieldsAgree : b.fieldsAgree = true
  primitiveResults : b.rvalues.all (·.hasPrimitiveResults) = true
  comparesReferences : b.rvalues.all (·.comparesReferences) = true
  makesObjects : b.rvalues.all (·.makesObjects) = true

namespace Body.Disciplined

variable {b : Body}

theorem coherent (h : b.Disciplined) (f g : Field) (hf : f ∈ b.fields) (hg : g ∈ b.fields)
    (same : (Chunk.ofField f == Chunk.ofField g) = true) : f.ty = g.ty := by
  have agree := List.all_eq_true.1 (List.all_eq_true.1 h.fieldsAgree f hf) g hg
  have names : (f.className == g.className && f.name == g.name) = true := same
  rw [names, Bool.not_true, Bool.false_or, beq_iff_eq] at agree
  exact agree

/-- The fields of a body, compared under some bridges. -/
def scene (h : b.Disciplined) (P : Bridge → Prop) : Scene where
  fields f := f ∈ b.fields
  bridges E := P E ∧
    (∀ f ∈ b.fields, E.CarriesConst (.array f.ty.role)
      ((Chunk.ofField f).id, (Chunk.ofField f).sort) ((Chunk.ofField f).id, (Chunk.ofField f).sort)) ∧
    E.CarriesConst (.array .tag) (Registry.arrayName, .array Address.sort (.bitVec 32))
      (Registry.arrayName, .array Address.sort (.bitVec 32))
  mirrored := False
  coherent := h.coherent
  field_carries := fun _ hE => hE.2.1
  tags_carry := fun _ hE => hE.2.2

/-- The scene in which states are only typed. -/
def still (h : b.Disciplined) : Scene := h.scene fun _ => False

/-- The scene of a valuation of the merged states. -/
def onward (h : b.Disciplined) (ρ : Valuation) : Scene := h.scene fun E => E.left = ρ

theorem call_none (h : b.Disciplined) : ∀ i ∈ b.instructions, i.call? = none := fun i hi => by
  simpa using List.all_eq_true.1 h.callFree i hi

theorem regular (h : b.Disciplined) (P : Bridge → Prop) {i : Instruction} (hi : i ∈ b.instructions) :
    i.Regular (h.scene P) := by
  have expression : ∀ r, i.rvalue? = some r → r ∈ b.rvalues := fun r hr =>
    List.mem_filterMap.2 ⟨i, hi, hr⟩
  exact {
    callFree := h.call_none i hi
    fields := fun f hf => List.mem_flatMap.2 ⟨i, hi, hf⟩
    primitive := fun r hr => List.all_eq_true.1 h.primitiveResults r (expression r hr)
    equality := fun r hr => List.all_eq_true.1 h.comparesReferences r (expression r hr)
    objects := fun r hr => List.all_eq_true.1 h.makesObjects r (expression r hr) }

end Body.Disciplined
end SinkReach
