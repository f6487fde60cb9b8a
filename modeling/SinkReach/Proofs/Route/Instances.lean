import SinkReach.Proofs.Stateful
import SinkReach.Proofs.Table
import SinkReach.Route.Instances

/-!
Call instances of an analysis that stays in one method: they all have the one graph of the method, so
that a node's successors depend on its instruction alone.
-/
namespace SinkReach.Instances

variable {α : Type} {q : Query} {m : Method} {s s' : Instances α} {n : Node}

/-- The instances after one of a method was made. -/
def withNew (s : Instances α) (m : Method) (g : Digraph) : Instances α := ⟨s.all ++ [⟨m, g, {}⟩]⟩

theorem make_ok {id : CallId} (h : (make q m).run.run s = (.ok id, s')) :
    ∃ g, q.graph m = .ok g ∧ id = s.count ∧ s' = s.withNew m g := by
  obtain ⟨g, s₁, lift, rest⟩ := run_bind_ok.1 h
  obtain ⟨graph, rfl⟩ := run_lift_ok.1 lift
  cases rest
  exact ⟨g, graph, rfl, rfl⟩

theorem enter_ok (h : (enter q m).run.run s = (.ok n, s')) :
    ∃ g, q.graph m = .ok g ∧ n = ⟨s.count, m, Body.entry⟩ ∧ s' = s.withNew m g := by
  obtain ⟨b, s₁, lift, rest⟩ := run_bind_ok.1 h
  obtain ⟨-, rfl⟩ := run_lift_ok.1 lift
  obtain ⟨id, s₂, make, rest⟩ := run_bind_ok.1 rest
  obtain ⟨g, graph, rfl, rfl⟩ := make_ok make
  cases rest
  exact ⟨g, graph, rfl, rfl⟩

/-- The instance that a return resumes in is that of the call site which the path names. -/
theorem resume_ok {site : Node} (h : (resume q n).run.run s = (.ok site, s')) :
    ∃ i m g, returnSite q n = .ok (i, m) ∧ q.graph m = .ok g ∧ site = ⟨s.count, m, i⟩ ∧
      s' = s.withNew m g := by
  obtain ⟨⟨i, m⟩, s₁, lift, rest⟩ := run_bind_ok.1 h
  obtain ⟨found, rfl⟩ := run_lift_ok.1 lift
  obtain ⟨id, s₂, make, rest⟩ := run_bind_ok.1 rest
  obtain ⟨g, graph, rfl, rfl⟩ := make_ok make
  obtain ⟨_, _, get, rest⟩ := run_bind_ok.1 rest
  cases get
  split at rest
  · cases rest
    exact ⟨i, m, g, found, graph, rfl, rfl⟩
  · cases rest

theorem getElem?_withNew (s : Instances α) (m : Method) (g : Digraph) :
    (s.withNew m g).all[s.count]? = some ⟨m, g, {}⟩ :=
  List.getElem?_concat_length

theorem contains_new {g : Digraph} {i : InstrId} (known : g.contains i = true) :
    (s.withNew m g).contains ⟨s.count, m, i⟩ = true := by
  unfold contains
  rw [getElem?_withNew]
  exact known

/-- A return resumes at the call site that the path names if the caller's graph has it. -/
theorem resume_run {i : InstrId} {g : Digraph} (found : returnSite q n = .ok (i, m)) (graph : q.graph m = .ok g)
    (listed : g.contains i = true) : (resume q n).run.run s = (.ok ⟨s.count, m, i⟩, s.withNew m g) := by
  refine run_bind_ok.2 ⟨(i, m), s, run_lift_ok.2 ⟨found, rfl⟩, ?_⟩
  refine run_bind_ok.2 ⟨s.count, s.withNew m g, run_bind_ok.2 ⟨g, s, run_lift_ok.2 ⟨graph, rfl⟩, rfl⟩, ?_⟩
  refine run_bind_ok.2 ⟨_, _, rfl, ?_⟩
  simp only [contains_new listed, if_true]
  rfl

theorem returnSite_congr {n' : Node} (method : n.method = n'.method) (instr : n.instr = n'.instr)
    {r : InstrId × Method} (h : returnSite q n = .ok r) : returnSite q n' = .ok r := by
  unfold returnSite at h ⊢
  rw [method, instr] at h
  split at h
  · cases h
  next e _ =>
    cases site : e.returnSite? with
    | none => simp [site] at h
    | some r => simpa [site] using h

/-- A path that stays in one method returns into that method. -/
theorem returnSite_method (inMethod : ∀ e ∈ q.path.entries, e.method = m) {i : InstrId} {m' : Method}
    (h : returnSite q n = .ok (i, m')) : m' = m := by
  unfold returnSite at h
  split at h
  · cases h
  · split at h
    · cases h
    next site method _ =>
      split at h
      next keys =>
        cases h
        obtain ⟨e, he, same⟩ := List.any_eq_true.1 keys
        exact (of_decide_eq_true same).symm.trans (inMethod e he)
      next => cases h

/-- All instances are of one method and have its graph. -/
def Uniform (q : Query) (m : Method) (s : Instances α) : Prop :=
  ∀ i ∈ s.all, i.method = m ∧ q.graph m = .ok i.graph

theorem Uniform.empty : (empty : Instances α).Uniform q m := fun _ h => nomatch h

theorem Uniform.withNew (h : s.Uniform q m) {g : Digraph} (graph : q.graph m = .ok g) :
    (s.withNew m g).Uniform q m := by
  intro i hi
  rcases List.mem_append.1 hi with hi | hi
  · exact h i hi
  · cases List.mem_singleton.1 hi
    exact ⟨rfl, graph⟩

/-- Successors depend on the instruction alone. -/
theorem Uniform.successors (h : s.Uniform q m) {ns : List Node} (found : s.successors n = .ok ns) :
    ∃ g, q.graph m = .ok g ∧ ns = (g.successors n.instr).map n.withInstr := by
  obtain ⟨i, hi, rest⟩ := except_bind_ok.1 found
  cases rest
  unfold of at hi
  split at hi
  · cases hi
  next i' known =>
    split at hi
    · cases hi
      exact ⟨i.graph, (h i (List.mem_of_getElem? known)).2, rfl⟩
    · cases hi

theorem first?_ok {o : Option Node} (h : s.first? n = .ok o) :
    ∃ ns, s.successors n = .ok ns ∧ o = ns.head? := by
  obtain ⟨ns, found, rest⟩ := except_bind_ok.1 h
  cases rest
  exact ⟨ns, found, rfl⟩

/-- Something was kept at a node, and nothing else changed. -/
theorem keep_ok {a : α} (h : s.keep n a = .ok s') : ∃ i, s.all[n.callId]? = some i ∧
    s' = ⟨s.all.set n.callId { i with data := i.data.insert n.instr a }⟩ := by
  unfold keep at h
  split at h
  · cases h
  next i known =>
    cases h
    exact ⟨i, known, rfl⟩

theorem Uniform.keep (h : s.Uniform q m) {a : α} (kept : s.keep n a = .ok s') : s'.Uniform q m := by
  obtain ⟨i, known, rfl⟩ := keep_ok kept
  intro j hj
  rcases List.mem_or_eq_of_mem_set hj with hj | rfl
  · exact h j hj
  · exact h i (List.mem_of_getElem? known)

theorem data?_keep {a : α} (kept : s.keep n a = .ok s') (n' : Node) : s'.data? n' =
    if n.callId = n'.callId ∧ n.instr = n'.instr then some a else s.data? n' := by
  obtain ⟨i, known, rfl⟩ := keep_ok kept
  obtain ⟨lt, eq⟩ := List.getElem?_eq_some_iff.1 known
  unfold data?
  simp only [List.getElem?_set]
  by_cases call : n.callId = n'.callId
  · simp only [call, if_true, true_and]
    rw [← call, if_pos lt, known]
    simp only [Option.bind_some, Table.get?_insert, beq_iff_eq]
  · simp only [call, if_false, false_and]

/-- A new instance keeps nothing. -/
theorem data?_withNew (g : Digraph) {a : α} (h : (s.withNew m g).data? n = some a) :
    s.data? n = some a := by
  unfold data? withNew at h
  unfold data?
  rw [List.getElem?_append] at h
  split at h
  · exact h
  next =>
    obtain ⟨i, hi, found⟩ := Option.bind_eq_some_iff.1 h
    have := List.mem_of_getElem? hi
    cases List.mem_singleton.1 this
    cases found

end SinkReach.Instances
