import SinkReach.Proofs.Analysis.Coverage
import SinkReach.Proofs.ModelSearch.Sat
import SinkReach.Proofs.ModelSearch.WellSorted
import SinkReach.Proofs.Simulation.Bridging
import SinkReach.Proofs.Step.MergeExact

/-!
A sink that is found reachable is reached. The model of the state kept at the sink is followed by a run
that never merges; carried over to the constants of that run, it satisfies the run's own path condition.
-/
namespace SinkReach

open ModelSearch (OneSorted)

section Models

variable {ρ : Valuation} {ts : List Term}

/-- What a valuation gives to the constants of terms, an assignment binds. -/
theorem Valuation.exists_binding (ρ : Valuation) (one : OneSorted (Term.varsAll ts))
    (bound : ∀ x ∈ Term.varsAll ts, ∃ v, ρ x.1 x.2 = some v) :
    ∃ σ : Assignment, ∀ x ∈ Term.varsAll ts, σ.get? x.1 = ρ x.1 x.2 := by
  let value (name : String) : Value :=
    (((Term.varsAll ts).find? (·.1 = name)).bind fun x => ρ x.1 x.2).getD (.bool false)
  obtain ⟨σ, hσ⟩ := Assignment.exists_override .empty value ((Term.varsAll ts).map (·.1))
  refine ⟨σ, fun x hx => ?_⟩
  obtain ⟨v, hv⟩ := bound x hx
  obtain ⟨y, found⟩ : ∃ y, (Term.varsAll ts).find? (·.1 = x.1) = some y :=
    Option.isSome_iff_exists.1 (List.find?_isSome.2 ⟨x, hx, decide_eq_true rfl⟩)
  have same : y = x := by
    have name : y.1 = x.1 := by simpa using List.find?_some found
    exact Prod.ext name (one y.1 _ _ (List.mem_of_find?_eq_some found) (name ▸ hx))
  have value_eq : value x.1 = v := by
    simp only [value, found, Option.bind_some, same, hv, Option.getD_some]
  rw [hσ, if_pos (List.mem_map_of_mem hx), value_eq, hv]

/-- Conditions that a well-sorted valuation makes true are made true by a well-sorted assignment. -/
theorem Valuation.Models.exists_assignment (models : ρ.Models ts) (hρ : ρ.WellSorted)
    (conditions : ∀ t ∈ ts, t.IsCondition) (one : OneSorted (Term.varsAll ts)) :
    ∃ σ : Assignment, σ.WellSorted ts ∧ ∀ t ∈ ts, t.Holds σ := by
  have bound : ∀ x ∈ Term.varsAll ts, ∃ v, ρ x.1 x.2 = some v ∧ v.hasSort x.2 = true := by
    intro x hx
    obtain ⟨t, ht, occurs⟩ := Term.mem_varsAll.1 hx
    exact hρ x.1 x.2 (Term.admissible_of_mem_vars (conditions t ht).2 x occurs)
  obtain ⟨σ, hσ⟩ := ρ.exists_binding one fun x hx => (bound x hx).imp fun _ h => h.1
  refine ⟨σ, fun x hx => ?_, fun t ht => ?_⟩
  · rw [hσ x hx]
    exact bound x hx
  · have agree : t.denote σ.valuation = t.denote ρ :=
      Term.denote_congr fun x hx => hσ x (Term.mem_varsAll.2 ⟨t, ht, hx⟩)
    rw [Term.holds_iff_denote, agree]
    exact models t ht

end Models

section Naming

variable {S : Scene} {κ : Links} {c c' : Context} {n n' : Nat} {ts : List Term}

/-- Terms over known constants give no constant two sorts. -/
theorem Tidy.oneSorted (h : Tidy S κ c c' n n') (named : ∀ t ∈ ts, ∀ x ∈ t.vars, S.Names κ x) :
    OneSorted (Term.varsAll ts) := by
  intro name s s' hs hs'
  obtain ⟨t, ht, occurs⟩ := Term.mem_varsAll.1 hs
  obtain ⟨t', ht', occurs'⟩ := Term.mem_varsAll.1 hs'
  exact congrArg Prod.snd (h.names_unique (named t ht _ occurs) (named t' ht' _ occurs') rfl)

end Naming

/-- The counters of objects and types stay within 32 bits. -/
structure Search.CountersFit (s : Search) : Prop where
  objects : ∀ n x, s.world.calls.data? n = some x → x.symbolic.nextAddress < 2 ^ 32
  types : s.world.context.registry.types.length < 2 ^ 32

variable {q : Query} {m : Method} {limit : Nat} {b : Body} {κ : Links} {w : World} {x : ExecState} {t : Task}
  {o : Overflow}
  {s : Search} {a : Analyzer} {r : Result}

/-- A run that follows a valuation ends in a state that can be satisfied. -/
theorem Traced.satisfiable {h : b.Disciplined} {ρ : Valuation} {c : Context} {w' : World} {x' : ExecState}
    (traced : Traced (h.onward ρ) κ ρ q m c x w' x') (hρ : ρ.WellSorted)
    (few : x.symbolic.nextAddress < 2 ^ 32) (types : c.registry.types.length < 2 ^ 32) :
    ∃ σ : Assignment, σ.WellSorted x'.symbolic.constraints ∧ x'.symbolic.Satisfied σ := by
  -- The bridge gives the objects of the run the addresses that the valuation has for them.
  obtain ⟨E, left, respects, fields, tags⟩ := traced.tidy.exists_bridge hρ (Nat.le_of_lt few) types
  have models := traced.models E ⟨left, fields, tags⟩ respects
  exact models.exists_assignment E.right_sorted (fun u hu => (traced.known u hu).1)
    (traced.tidy.oneSorted fun u hu => (traced.known u hu).2)

/-- A state that is kept and has a model is followed by a run that can be satisfied. -/
theorem Kept.exists_run {h : b.Disciplined} {budget : Nat} {model : Assignment} {c : Context}
    (kept : Kept h q m limit κ c x) (accounts : Accounts h.still κ c)
    (few : x.symbolic.nextAddress < 2 ^ 32) (types : c.registry.types.length < 2 ^ 32)
    (sat : ModelSearch.check budget x.symbolic.constraints = .sat model) :
    ∃ w' x', Unmerged q m limit w' x' ∧ x'.node.instr = x.node.instr ∧ x'.Within m ∧
      ∃ σ : Assignment, σ.WellSorted x'.symbolic.constraints ∧ x'.symbolic.Satisfied σ := by
  have conditions : ∀ u ∈ x.symbolic.constraints, Plain h.still κ .bool u u := kept.typed.conditions
  have one : OneSorted (Term.varsAll x.symbolic.constraints) :=
    accounts.tidy.oneSorted fun u hu => (conditions u hu).1.named
  have sorted : model.WellSorted x.symbolic.constraints :=
    ModelSearch.check_sat_wellSorted (fun u hu => (conditions u hu).1.sorted) one sat
  have models : model.completed.Models x.symbolic.constraints := by
    intro u hu
    rw [← sorted.completed hu]
    exact Term.holds_iff_denote.1 (ModelSearch.holds_of_check_sat sat u hu)
  -- A model speaks of the constants of the constraints only; the cover needs values for all of them.
  obtain ⟨κ', w', x', run, traced⟩ := kept.covers _ model.completed_wellSorted models
  exact ⟨w', x', run, traced.instr, traced.within,
    traced.satisfiable model.completed_wellSorted few types⟩

/-- Whatever a search gets to is sound. -/
theorem Search.Reached.sound (reached : Search.Reached t m s) (h : b.Disciplined)
    (body : t.query.body m = .ok b) (inMethod : ∀ e ∈ t.query.path.entries, e.method = m)
    (never : NeverFails t.query m t.limit) : ∃ κ, SoundWorld h t.query m t.limit κ s.world := by
  obtain ⟨s₀, n, start, after⟩ := reached
  refine Search.after?_invariant (fun s => ∃ κ, SoundWorld h t.query m t.limit κ s.world) ?_
    ⟨_, .start start⟩ after
  rintro s s' ⟨κ, sound⟩ running
  exact sound.steps inMethod body never (Search.steps_of_running running)

/-- An answer that the sink is reachable comes of a model of the state kept there. -/
theorem Task.exists_model {stats : Stats} {budget : Nat}
    (searches : ∀ constraints, t.solver.check constraints = .ok (ModelSearch.check budget constraints))
    (verdict : (t.conclude x stats).verdict = .reachable) :
    ∃ model, ModelSearch.check budget x.symbolic.constraints = .sat model := by
  unfold Task.conclude at verdict
  rw [searches] at verdict
  cases answer : ModelSearch.check budget x.symbolic.constraints with
  | sat model => exact ⟨model, rfl⟩
  | unsat =>
    rw [answer] at verdict
    cases verdict
  | unknown =>
    rw [answer] at verdict
    cases verdict

/-- A sink that is found reachable is reached by a run that never merges, and an assignment satisfies the
path condition of that run. -/
theorem Analyzer.reachable_confirmed {fuel : Nat} (searches : a.solver.IsModelSearch)
    (body : q.body m = .ok b) (disciplined : b.Disciplined)
    (inMethod : ∀ e ∈ q.path.entries, e.method = m) (never : NeverFails q m a.settings.methodCalls)
    (fit : ∀ s, Search.Reached (a.task q o) m s → s.CountersFit)
    (analyzed : a.analyze fuel q m o = some r) (verdict : r.verdict = .reachable) :
    ∃ w x, ∃ σ : Assignment, Unmerged q m a.settings.methodCalls w x ∧
      q.path.isSink x.node.method x.node.instr = true ∧
      σ.WellSorted x.symbolic.constraints ∧ x.symbolic.Satisfied σ := by
  obtain ⟨budget, searches⟩ := searches
  rcases Analyzer.analyze_ok analyzed with ⟨f, failed⟩ | ⟨s, reached, done⟩
  · rw [failed] at verdict
    cases verdict
  cases Search.ends_of_done done with
  | @sink n _ x _ _ data isSink =>
    obtain ⟨model, sat⟩ := Task.exists_model (t := a.task q o) searches verdict
    obtain ⟨κ, sound⟩ := reached.sound disciplined body inMethod never
    have kept := sound.kept n x data
    have fits := fit s reached
    obtain ⟨w', x', run, instr, within, σ, sorted, satisfied⟩ :=
      kept.exists_run sound.accounts (fits.objects n x data) fits.types sat
    refine ⟨w', x', σ, run, ?_, sorted, satisfied⟩
    rw [instr, within.method, ← kept.within.method]
    exact isSink
  | empty => cases verdict
  | lost => cases verdict
  | fault => exact absurd verdict (Verdict.ofFault_ne rfl _)

/-- Whether a run stops at the sink or goes on without a fault. -/
def Unmerged.goesOn (q : Query) (limit : Nat) (r : World × ExecState) : Bool :=
  q.path.isSink r.2.node.method r.2.node.instr || ((r.2.next q limit).run.run r.1).1.isOk

theorem NeverFails.of_goesOn (h : ∀ w x, Unmerged q m limit w x → Unmerged.goesOn q limit (w, x) = true) :
    NeverFails q m limit := by
  intro w x run notSink
  have ok := h w x run
  unfold Unmerged.goesOn at ok
  rw [notSink, Bool.false_or] at ok
  rcases next : (x.next q limit).run.run w with ⟨_ | following, w'⟩
  · rw [next] at ok
    cases ok
  · exact ⟨following, w', rfl⟩

namespace Search

/-- Whether the counters fit in all that a search keeps. -/
def countersFit (s : Search) : Bool :=
  s.world.context.registry.types.length < 2 ^ 32 &&
    s.world.calls.all.all fun i => i.data.entries.all fun e => e.2.symbolic.nextAddress < 2 ^ 32

theorem CountersFit.of_check (h : s.countersFit = true) : s.CountersFit := by
  obtain ⟨types, objects⟩ := Bool.and_eq_true_iff.1 h
  refine ⟨fun n x found => ?_, of_decide_eq_true types⟩
  obtain ⟨i, here, data⟩ := Option.bind_eq_some_iff.1 found
  have entries := List.all_eq_true.1 objects i (List.mem_of_getElem? here)
  exact of_decide_eq_true (List.all_eq_true.1 entries _ (Table.mem_of_get? data))

/-- Whether a search ends within some number of steps and passes a test until then. -/
def always (t : Task) (test : Search → Bool) : Nat → Search → Bool
  | 0, _ => false
  | n + 1, s =>
    test s &&
      match s.step t with
      | .running s => always t test n s
      | .done _ => true

theorem of_always {test : Search → Bool} {n k : Nat} {s' : Search} (h : s.always t test n = true)
    (after : s.after? t k = some s') : test s' = true := by
  induction n generalizing s k with
  | zero => cases h
  | succ n ih =>
    obtain ⟨here, onward⟩ := Bool.and_eq_true_iff.1 h
    cases k with
    | zero =>
      cases after
      exact here
    | succ k =>
      unfold after? at after
      split at after
      next running =>
        rw [running] at onward
        exact ih onward after
      next => cases after

/-- Whether a search comes to the sink after some number of steps, with constraints that pass a test. -/
def arrives (t : Task) (m : Method) (n : Nat) (test : List Term → Bool) : Bool :=
  match start t m with
  | .error _ => false
  | .ok s =>
    (s.after? t n).any fun s => s.worklist.pop?.any fun (k, worklist) =>
      !worklist.isProcessed k && (s.world.calls.data? k).any fun x =>
        t.query.path.isSink x.node.method x.node.instr && test x.symbolic.constraints

end Search

/-- An analysis that comes to the sink asks the solver about the constraints there. -/
theorem Analyzer.analyze_of_arrives {n : Nat} {test : List Term → Bool}
    (h : Search.arrives (a.task q o) m n test = true) :
    ∃ x stats, a.analyze (n + 1) q m o = some ((a.task q o).conclude x stats) ∧
      test x.symbolic.constraints = true := by
  unfold Search.arrives at h
  cases start : Search.start (a.task q o) m with
  | error f =>
    rw [start] at h
    cases h
  | ok s₀ =>
    rw [start] at h
    obtain ⟨s, after, h⟩ := (Option.any_eq_true ..).1 h
    obtain ⟨⟨k, worklist⟩, pop, h⟩ := (Option.any_eq_true ..).1 h
    obtain ⟨fresh, h⟩ := Bool.and_eq_true_iff.1 h
    obtain ⟨x, data, h⟩ := (Option.any_eq_true ..).1 h
    obtain ⟨isSink, tested⟩ := Bool.and_eq_true_iff.1 h
    let stats := { s.stats with iterations := s.stats.iterations + 1, processed := s.stats.processed + 1 }
    have ended : s.step (a.task q o) = .done ((a.task q o).conclude x stats) := by
      have fresh : worklist.isProcessed k = false := by simpa using fresh
      unfold Search.step
      rw [pop]
      simp only [fresh, Bool.false_eq_true, if_false, Search.process, data, isSink, if_true, stats]
    refine ⟨x, stats, ?_, tested⟩
    unfold Analyzer.analyze
    rw [start]
    exact Search.run_of_after? after ended

section Addresses

open ModelSearch

/-- The array of tags, and the condition that the third object has the first type, with any labels. -/
def tagArray (i : Label) : Term := .leaf i (.var Registry.arrayName (.array Address.sort (.bitVec 32)))

def thirdTag (l k i j d : Label) : Term :=
  .binary l .eq (.binary k .select (tagArray i) (.leaf j (.bitVec 3 32))) (.leaf d (.bitVec 1 32))

def thirdTagged : Value := .array (.store (.const (.bitVec 0 32)) (.bitVec 3 32) (.bitVec 1 32))

section ThirdTag

variable (l k i j d : Label)

theorem nodes_thirdTag : Term.nodes [thirdTag l k i j d] = [tagArray i, .leaf j (.bitVec 3 32),
    .binary k .select (tagArray i) (.leaf j (.bitVec 3 32)), .leaf d (.bitVec 1 32), thirdTag l k i j d] := by
  simp [Term.nodes, thirdTag, tagArray, Term.visitAll, Term.visit, Term.alike]

theorem freeVars_thirdTag :
    Term.freeVars [thirdTag l k i j d] = ⟨[(Registry.arrayName, .array Address.sort (.bitVec 32))]⟩ := by
  rw [Term.freeVars_eq, nodes_thirdTag]
  rfl

theorem literals_thirdTag : Literals.ofConjuncts [thirdTag l k i j d] = ⟨[3, 1], []⟩ := by
  rw [Literals.ofConjuncts, nodes_thirdTag]
  rfl

theorem levels_thirdTag (vs : List Value) :
    levels [⟨Registry.arrayName, vs, false⟩] [thirdTag l k i j d] =
      [⟨⟨Registry.arrayName, vs, false⟩, [thirdTag l k i j d]⟩] := by
  simp only [levels, lastPosition, List.map, freeVars_thirdTag]
  rfl

theorem thirdTag_holds : (thirdTag l k i j d).Holds (.ofList [(Registry.arrayName, thirdTagged)]) := by
  rw [Term.holds_iff_evalBool]
  cbv

/-- The first array that is tried has the tag. -/
theorem decideOpen_thirdTag (budget : Nat) :
    decideOpen (budget + 1) (Term.freeVars [thirdTag l k i j d]) [thirdTag l k i j d] =
      .sat (.ofList [(Registry.arrayName, thirdTagged)]) := by
  let facts := Facts.ofConjuncts ⟨[(Registry.arrayName, .array Address.sort (.bitVec 32))]⟩ [thirdTag l k i j d]
  have unrefuted : facts.refuted = false := rfl
  obtain ⟨vs, domain⟩ : ∃ vs, Domain.ofFacts facts ⟨[3, 1], []⟩ Registry.arrayName
      (.array Address.sort (.bitVec 32)) = ⟨Registry.arrayName, thirdTagged :: vs, false⟩ := ⟨_, rfl⟩
  have inserted : Table.insert ({} : Assignment) Registry.arrayName thirdTagged =
      .ofList [(Registry.arrayName, thirdTagged)] := rfl
  have first : allTrue (.ofList [(Registry.arrayName, thirdTagged)]) [thirdTag l k i j d] {} = true :=
    (allTrue_iff (Term.Memory.sound_empty _)).2 (List.forall_mem_singleton.2 (thirdTag_holds ..))
  simp only [decideOpen, freeVars_thirdTag, literals_thirdTag, List.map]
  rw [show Facts.ofConjuncts _ _ = facts from rfl, unrefuted, domain]
  simp [levels_thirdTag, search, tryValues, inserted, first]

end ThirdTag

/-- Whether a condition on the tag of the third object is all that is not plainly true. -/
def isThirdTag : List Term → Bool
  | [.leaf _ (.bool true), .binary _ .eq (.binary _ .select
      (.leaf _ (.var name (.array (.bitVec 32) (.bitVec 32)))) (.leaf _ (.bitVec 3 32))) (.leaf _ (.bitVec 1 32)),
      .leaf _ (.bool true), .leaf _ (.bool true)] => name == Registry.arrayName
  | _ => false

theorem check_of_isThirdTag {constraints : List Term} (h : isThirdTag constraints = true) (budget : Nat) :
    ∃ model, check (budget + 1) constraints = .sat model := by
  unfold isThirdTag at h
  split at h
  next a l k i name j d a' a'' =>
    obtain rfl := eq_of_beq h
    refine ⟨_, Eq.trans ?_ (decideOpen_thirdTag l k i j d budget)⟩
    have opened : (openConjunctions [.leaf a (.bool true), thirdTag l k i j d, .leaf a' (.bool true),
        .leaf a'' (.bool true)] []).filter (fun t => !(t.bool? == some true)) = [thirdTag l k i j d] := rfl
    have unrefuted : (openConjunctions [.leaf a (.bool true), thirdTag l k i j d, .leaf a' (.bool true),
        .leaf a'' (.bool true)] []).any (fun t => t.bool? == some false) = false := rfl
    change check (budget + 1) [.leaf a (.bool true), thirdTag l k i j d, .leaf a' (.bool true),
      .leaf a'' (.bool true)] = _
    simp [check, opened, unrefuted, freeVars_thirdTag]
  next => cases h

def counting : Method := ⟨"A", "run", [], .void⟩

/-- Makes two objects on one side of a fork and another one past it, gives a number to `x`, and gets to
the sink where the side was not taken and the number is three. -/
def countingBody (number : Rvalue) : Body where
  method := counting
  locals := [⟨"p", .ref "A"⟩, ⟨"b", .int⟩, ⟨"x", .int⟩]
  instructions := [
    .assign (.loc ⟨"p", .ref "A"⟩) (.use (.const .null)),
    .assign (.loc ⟨"b", .int⟩) (.use (.const (.int 0))),
    .branch (.binary .eq (.loc ⟨"b", .int⟩) (.const (.int 0)) .boolean) 6,
    .assign (.loc ⟨"b", .int⟩) (.use (.const (.int 1))),
    .assign (.loc ⟨"p", .ref "A"⟩) (.new (.ref "A")),
    .assign (.loc ⟨"p", .ref "A"⟩) (.new (.ref "A")),
    .assign (.loc ⟨"p", .ref "A"⟩) (.new (.ref "A")),
    .assign (.loc ⟨"x", .int⟩) number,
    .branch (.binary .ne (.loc ⟨"b", .int⟩) (.const (.int 0)) .boolean) 11,
    .branch (.binary .ne (.loc ⟨"x", .int⟩) (.const (.int 3)) .boolean) 11,
    .nop, .retVoid]
  successors := [[1], [2], [3, 6], [4], [5], [6], [7], [8], [9, 11], [10, 11], [11], []]
  nonempty := List.cons_ne_nil _ _
  successors_length := rfl
  edges_lt := show ∀ i ∈ [1, 2, 3, 6, 4, 5, 6, 7, 8, 9, 11, 10, 11, 11], i < 12 by decide

def countingQuery (number : Rvalue) : Query where
  program := .ofBodies [countingBody number] []
  path := ⟨[⟨.sink, counting, 10, none, none⟩], by decide⟩

theorem counting_inMethod (number : Rvalue) :
    ∀ e ∈ (countingQuery number).path.entries, e.method = counting := by
  intro e mem
  cases List.mem_singleton.1 mem
  rfl

theorem exists_reachable {number : Rvalue} {n : Nat}
    (h : Search.arrives (plainAnalyzer.task (countingQuery number)) counting n isThirdTag = true) :
    ∃ r, plainAnalyzer.analyze (n + 1) (countingQuery number) counting = some r ∧ r.verdict = .reachable := by
  obtain ⟨x, stats, analyzed, tested⟩ := Analyzer.analyze_of_arrives h
  obtain ⟨model, sat⟩ := check_of_isThirdTag tested 49999
  refine ⟨_, analyzed, ?_⟩
  have answer : (plainAnalyzer.task (countingQuery number)).solver.check x.symbolic.constraints =
      .ok (.sat model) := congrArg Except.ok sat
  unfold Task.conclude
  rw [answer]

/-- How far the newest object is from null. -/
def distance : Rvalue := .binary .sub (.loc ⟨"p", .ref "A"⟩) (.const .null) .int

/-- Whether one of the constraints is plainly false. -/
def SymState.isRefuted (s : SymState) : Bool :=
  s.constraints.any fun t => t matches .leaf _ (.bool false)

theorem SymState.not_satisfied {s : SymState} (h : s.isRefuted = true) (σ : Assignment) :
    ¬ s.Satisfied σ := by
  intro satisfied
  obtain ⟨t, mem, plain⟩ := List.any_eq_true.1 h
  have holds := satisfied t mem
  split at plain
  next => cases holds
  next => cases plain

/-- The newest object has another address after the merge than on the path that makes no other object. Where
the difference of references is a number, the sink is found reachable, but no run gets there with a path
condition that can be satisfied. -/
theorem reachable_unconfirmed_distance :
    (countingBody distance).callFree = true ∧ (countingBody distance).fieldsAgree = true ∧
    (countingBody distance).rvalues.all (·.hasPrimitiveResults) = true ∧
    (countingBody distance).rvalues.all (·.makesObjects) = true ∧
    (countingQuery distance).body counting = .ok (countingBody distance) ∧
    (∀ e ∈ (countingQuery distance).path.entries, e.method = counting) ∧
    NeverFails (countingQuery distance) counting plainAnalyzer.settings.methodCalls ∧
    plainAnalyzer.solver.IsModelSearch ∧
    (∃ r, plainAnalyzer.analyze 11 (countingQuery distance) counting = some r ∧ r.verdict = .reachable) ∧
    ∀ w x, Unmerged (countingQuery distance) counting plainAnalyzer.settings.methodCalls w x →
      (countingQuery distance).path.isSink x.node.method x.node.instr = true →
      ∀ σ, ¬ x.symbolic.Satisfied σ := by
  have checked : Unmerged.always (countingQuery distance) counting plainAnalyzer.settings.methodCalls 12
      (fun r => Unmerged.goesOn (countingQuery distance) plainAnalyzer.settings.methodCalls r &&
        (!(countingQuery distance).path.isSink r.2.node.method r.2.node.instr ||
          r.2.symbolic.isRefuted)) = true := by decide +kernel
  have each := fun w x (run : Unmerged _ _ _ w x) => Bool.and_eq_true_iff.1 (run.of_always checked)
  have arrives : Search.arrives (plainAnalyzer.task (countingQuery distance)) counting 10
      isThirdTag = true := by decide +kernel
  refine ⟨rfl, by decide, rfl, rfl, rfl, counting_inMethod _, .of_goesOn fun w x run => (each w x run).1,
    plainAnalyzer_isModelSearch, exists_reachable arrives, ?_⟩
  intro w x run isSink
  have refuted := (each w x run).2
  rw [isSink, Bool.not_true, Bool.false_or] at refuted
  exact SymState.not_satisfied refuted

/-- A plain number instead. -/
def three : Rvalue := .use (.const (.int 3))

/-- A plain three is found reachable too, and confirmed. -/
theorem reachable_confirmed_three :
    ∃ w x, ∃ σ : Assignment,
      Unmerged (countingQuery three) counting plainAnalyzer.settings.methodCalls w x ∧
      (countingQuery three).path.isSink x.node.method x.node.instr = true ∧
      σ.WellSorted x.symbolic.constraints ∧ x.symbolic.Satisfied σ := by
  have never : NeverFails (countingQuery three) counting plainAnalyzer.settings.methodCalls := by
    refine .of_goesOn fun w x run => run.of_always (n := 12) ?_
    decide +kernel
  have fit : ∀ s, Search.Reached (plainAnalyzer.task (countingQuery three)) counting s → s.CountersFit := by
    rintro s ⟨s₀, n, start, after⟩
    refine .of_check (Search.of_always (n := 20) ?_ after)
    have checked : ((Search.start (plainAnalyzer.task (countingQuery three)) counting).toOption.all fun s =>
        s.always (plainAnalyzer.task (countingQuery three)) Search.countersFit 20) = true := by decide +kernel
    rw [start] at checked
    exact checked
  have arrives : Search.arrives (plainAnalyzer.task (countingQuery three)) counting 10 isThirdTag = true := by
    decide +kernel
  obtain ⟨r, analyzed, verdict⟩ := exists_reachable arrives
  exact Analyzer.reachable_confirmed plainAnalyzer_isModelSearch rfl ⟨rfl, by decide, rfl, rfl, rfl⟩
    (counting_inMethod _) never fit analyzed verdict

end Addresses
end SinkReach
