import SinkReach.Proofs.Analysis.Search
import SinkReach.Proofs.Step.Following
import SinkReach.Proofs.Step.MergeExact

/-!
The frontier of a search: the nodes that wait to be processed, each with its state, and the states that
follow from the node at hand and are still to be received. At every moment no assignment satisfies two
of them. A merge therefore never hides an incoming state behind the one that it is merged into.
-/
namespace SinkReach

section Merging

variable {F : Field → Prop} {lhs rhs st : SymState} {c c' : Context} {l : Label} {ts : List Term} {M : Machine}
  {guard : Term} {id : LocalId} {v w r : SymValue}

/-- A conditional is of the sort of its branches. -/
theorem Term.sort_conditional {a b t : Term} {x : TermSort} (h : conditional l guard a b = .ok t)
    (sort : a.sort = x) (other : x ≠ .bool) : t.sort = x := by
  unfold conditional at h
  split at h
  · cases h
  next same =>
    split at h
    · cases h
    · have same := Decidable.of_not_not same
      have literal : ∀ p, a.bool? ≠ some p := by
        rintro p bool
        obtain ⟨l, rfl⟩ := bool?_leaf bool
        exact other sort.symm
      cases h
      unfold ite
      split
      · exact sort
      · exact same ▸ sort
      · split
        · exact sort
        · split
          next yes _ => exact absurd yes (literal _)
          next no _ => exact absurd no (literal _)
          next => exact sort

theorem Merged.fits (h : Merged guard v w r) {ty : Ty} (hv : v.Fits ty) (hw : w.Fits ty) : r.Fits ty := by
  cases h with
  | same => exact hv
  | chosen l chosen =>
    obtain ⟨rfl, bits⟩ := hv
    obtain ⟨same, bits'⟩ := hw
    cases v with
    | primitive s a =>
      cases w with
      | reference => cases chosen
      | primitive t b =>
        obtain rfl : t = s := same
        simp only [Machine.choose, if_true] at chosen
        obtain ⟨_, cast, chosen⟩ := except_bind_ok.1 chosen
        cases cast
        obtain ⟨u, conditional, chosen⟩ := except_bind_ok.1 chosen
        cases chosen
        refine ⟨rfl, SymValue.hasBits_primitive fun integral => ?_⟩
        obtain ⟨x, sort⟩ := bits t a rfl integral
        exact ⟨x, Term.sort_conditional conditional sort (by simp)⟩
    | reference s a =>
      cases w with
      | primitive => cases chosen
      | reference t b =>
        obtain rfl : t = s := same
        obtain ⟨u, -, chosen⟩ := except_bind_ok.1 chosen
        cases chosen
        refine ⟨?_, SymValue.hasBits_reference⟩
        show (if t = .null then t else t) = t
        rw [ite_self]

theorem Machine.Known.fits {M M' : Machine} {o : Option SymValue} (h : Known id M c o v M' c')
    (typed : ∀ v, o = some v → v.Fits id.ty) : v.Fits id.ty := by
  cases h with
  | bound => exact typed _ rfl
  | unbound unknown => exact unknown.fits

/-- A merge keeps to the types. -/
theorem MergeOf.hasBits (h : MergeOf lhs rhs c l ts M st c') (agree : Field.Agree F)
    (left : lhs.memory.HasBits F) (right : rhs.memory.HasBits F) : st.memory.HasBits F := by
  refine ⟨fun id v found => ?_, fun e mem => ?_⟩
  · obtain ⟨x, x', locals⟩ := h.locals
    obtain ⟨-, -, merged⟩ := mergeLocals_ok locals
    obtain ⟨M₀, c₀, M₁, c₁, run, -⟩ := merged id v found
    obtain ⟨a, b, M₂, c₂, c₃, labels, known, known', merged, -⟩ := mergeLocal_ok run
    exact merged.fits (known.fits (left.locals id)) (known'.fits (right.locals id))
  · have key : e.1 ∈ st.memory.fields.keys := List.mem_map.2 ⟨e, mem, rfl⟩
    rw [h.keys] at key
    obtain ⟨f, named, field⟩ : ∃ f, F f ∧ e.1 = .ofField f := by
      rcases Table.mem_of_mem_unionKeys key with key | key
      · obtain ⟨e', mem', same⟩ := List.mem_map.1 key
        obtain ⟨f, named, field, -⟩ := left.fields e' mem'
        exact ⟨f, named, same ▸ field⟩
      · obtain ⟨e', mem', same⟩ := List.mem_map.1 key
        obtain ⟨f, named, field, -⟩ := right.fields e' mem'
        exact ⟨f, named, same ▸ field⟩
    refine ⟨f, named, field, fun integral => ?_⟩
    obtain ⟨x, array⟩ := h.arrays e mem
    rw [field] at array
    obtain ⟨i, w, sort⟩ := left.array agree named x integral
    unfold mergeArray at array
    dsimp only at array
    split at array
    · exact ⟨i, w, Except.ok.inj array ▸ sort⟩
    · exact ⟨i, w, Term.sort_conditional array sort (by simp)⟩

/-- Whatever excludes both sides excludes the merged state. -/
theorem MergeOf.excludes (h : MergeOf lhs rhs c l ts M st c') {u : SymState} (left : lhs.Excludes u)
    (right : rhs.Excludes u) : st.Excludes u := by
  intro ρ models
  rw [h.constraints] at models
  obtain ⟨t, mem, true⟩ := Term.exists_of_denote_orAll (models _ List.mem_cons_self)
  rcases List.mem_cons.1 mem with rfl | mem
  · exact left ρ (Term.denote_andAll_iff.1 true)
  · cases List.mem_singleton.1 mem
    exact right ρ (Term.denote_andAll_iff.1 true)

end Merging

section Keeping

variable {q : Query} {s s' : Instances ExecState} {n k : Node} {x : ExecState}

theorem Instances.Drawn.keep (h : s.Drawn q) (kept : s.keep n x = .ok s') : s'.Drawn q := by
  obtain ⟨i, found, rfl⟩ := Instances.keep_ok kept
  intro j mem
  rcases List.mem_or_eq_of_mem_set mem with mem | rfl
  · exact h j mem
  · exact h i (List.mem_of_getElem? found)

/-- Keeping a state leaves all nodes where they are. -/
theorem Instances.places_keep (kept : s.keep n x = .ok s') : s'.Places k ↔ s.Places k := by
  obtain ⟨i, found, rfl⟩ := Instances.keep_ok kept
  have less := (List.getElem?_eq_some_iff.1 found).1
  unfold Instances.Places
  by_cases same : n.callId = k.callId
  · rw [← same, List.getElem?_set_self less, found]
    constructor
    · rintro ⟨j, ⟨⟩, method⟩
      exact ⟨i, rfl, method⟩
    · rintro ⟨j, ⟨⟩, method⟩
      exact ⟨_, rfl, method⟩
  · rw [List.getElem?_set_ne same]

theorem Instances.count_keep (kept : s.keep n x = .ok s') : s'.count = s.count := by
  obtain ⟨i, -, rfl⟩ := Instances.keep_ok kept
  exact List.length_set

/-- What is kept afterwards is what was put there, or was kept before. -/
theorem Instances.put_or_kept {y : ExecState} (kept : s.keep n x = .ok s') (found : s'.data? k = some y) :
    (n.callId = k.callId ∧ n.instr = k.instr) ∧ y = x ∨ s.data? k = some y := by
  rw [Instances.data?_keep kept] at found
  split at found
  next same => exact .inl ⟨same, (Option.some.inj found).symm⟩
  next => exact .inr found

/-- Nodes of one instance and instruction are the same. -/
theorem Instances.Places.eq (h : s.Places n) (h' : s.Places k) (callId : n.callId = k.callId)
    (instr : n.instr = k.instr) : n = k := by
  obtain ⟨i, found, method⟩ := h
  obtain ⟨j, found', method'⟩ := h'
  rw [callId] at found
  cases found.symm.trans found'
  cases n
  cases k
  simp only at callId instr method method'
  rw [callId, instr, ← method, ← method']

/-- Where something is kept, an older instance places the node. -/
theorem Instances.places_of_withNew {m : Method} {g : Digraph} (h : (s.withNew m g).Places n)
    (found : s.data? n = some x) : s.Places n := by
  obtain ⟨i, at', method⟩ := h
  unfold Instances.data? at found
  obtain ⟨j, old, -⟩ := Option.bind_eq_some_iff.1 found
  have less := (List.getElem?_eq_some_iff.1 old).1
  refine ⟨i, ?_, method⟩
  rw [← List.getElem?_append_left less]
  exact at'

end Keeping

/-- A program of one body has no other. -/
theorem Program.eq_of_body?_ofBodies {b b' : Body} {m : Method} {libraries : List String}
    (h : (Program.ofBodies [b'] libraries).body? m = some b) : b = b' := by
  have entries : (Program.ofBodies [b'] libraries).bodies.entries = [(b'.method, b')] := rfl
  unfold Program.body? Table.get? at h
  rw [entries, Table.lookup_cons] at h
  split at h
  · exact (Option.some.inj h).symm
  · cases h

namespace Search

/-- A moment of a search: where it is, and the states still to be received of those that follow from the
node it has expanded last, with the first successor of that node. -/
inductive Moment (t : Task) (m : Method) : Search → Option Node → List ExecState → Prop
  | start {s : Search} : Search.start t m = .ok s → Moment t m s none []
  | skip {s : Search} {first : Option Node} {n : Node} {worklist : Worklist} : Moment t m s first [] →
    s.worklist.pop? = some (n, worklist) → worklist.isProcessed n = true →
    Moment t m { s with worklist, stats := { s.stats with iterations := s.stats.iterations + 1 } } none []
  | expand {s : Search} {first first' : Option Node} {n : Node} {worklist : Worklist} {x : ExecState}
      {following : List ExecState} {w : World} : Moment t m s first [] →
    s.worklist.pop? = some (n, worklist) → worklist.isProcessed n = false →
    s.world.calls.data? n = some x → s.world.calls.first? n = .ok first' →
    (x.next t.query t.limit).run.run s.world = (.ok following, w) →
    Moment t m ⟨w, worklist.mark n, { s.stats with
      iterations := s.stats.iterations + 1, processed := s.stats.processed + 1 }⟩ first' following
  | receive {s s' : Search} {first : Option Node} {x : ExecState} {xs : List ExecState} :
    Moment t m s first (x :: xs) → (Searching.receive t.overflow first x).run.run s = (.ok (), s') →
    Moment t m s' first xs

variable {t : Task} {m : Method} {s s' : Search} {first : Option Node} {pending : List ExecState}

theorem Moment.receives (h : Moment t m s first pending) (received : Searching.Receives t.overflow first pending s s') :
    Moment t m s' first [] := by
  induction received with
  | nil => exact h
  | cons receive _ ih => exact ih (h.receive receive)

/-- Every step of a search that goes on leads from moment to moment. -/
theorem Moment.step (h : Moment t m s first []) (running : s.step t = .running s') :
    ∃ first', Moment t m s' first' [] := by
  cases steps_of_running running with
  | skip pop processed => exact ⟨none, h.skip pop processed⟩
  | expand pop fresh data _ first' next receives =>
    exact ⟨_, (h.expand pop fresh data first' next).receives receives⟩

/-- At first nothing is kept but the initial state, and that at the entry alone. -/
theorem start_kept (h : Search.start t m = .ok s) : s.world.calls.Places ⟨0, m, Body.entry⟩ ∧
    ∀ n x, s.world.calls.data? n = some x →
      (0 = n.callId ∧ Body.entry = n.instr) ∧ x = .initial ⟨0, m, Body.entry⟩ := by
  obtain ⟨entry, calls, calls', enter, keep, rfl⟩ := start_ok h
  obtain ⟨g, -, rfl, rfl⟩ := Instances.enter_ok enter
  refine ⟨(Instances.places_keep keep).2 (Instances.places_new .empty m g Body.entry), fun n x found => ?_⟩
  rcases Instances.put_or_kept keep found with ⟨here, rfl⟩ | found
  · exact ⟨here, rfl⟩
  · cases Instances.data?_withNew g found

/-- The node is not processed yet, and the state is kept there. -/
structure Waits (s : Search) (n : Node) (x : ExecState) : Prop where
  placed : s.world.calls.Places n
  fresh : s.worklist.isProcessed n = false
  data : s.world.calls.data? n = some x

/-- The states of nodes that wait and the states that are still to be received exclude each other. -/
structure Frontier (q : Query) (s : Search) (pending : List ExecState) : Prop where
  drawn : s.world.calls.Drawn q
  queued : ∀ n ∈ s.worklist.queue, s.world.calls.Places n
  placed : ∀ x ∈ pending, s.world.calls.Places x.node
  kept : ∀ n x, s.world.calls.data? n = some x → x.symbolic.memory.HasBits q.program.Names
  bits : ∀ x ∈ pending, x.symbolic.memory.HasBits q.program.Names
  waiting : ∀ n n' x x', n ≠ n' → s.Waits n x → s.Waits n' x' → x.symbolic.Excludes x'.symbolic
  apart : pending.Pairwise fun x y => x.symbolic.Excludes y.symbolic
  arriving : ∀ p ∈ pending, ∀ n x, s.Waits n x → p.symbolic.Excludes x.symbolic

namespace Frontier

variable {q : Query} {o : Overflow} {x y : ExecState} {xs : List ExecState} {n : Node} {worklist : Worklist}

theorem start (h : Search.start t m = .ok s) : Frontier t.query s [] := by
  obtain ⟨placed, only⟩ := start_kept h
  obtain ⟨entry, calls, calls', enter, keep, rfl⟩ := start_ok h
  obtain ⟨g, graph, rfl, rfl⟩ := Instances.enter_ok enter
  have drawn : (Instances.withNew .empty m g : Instances ExecState).Drawn t.query :=
    Instances.Drawn.withNew (s := .empty) (fun _ mem => nomatch mem) graph
  refine ⟨drawn.keep keep, List.forall_mem_singleton.2 placed, fun _ mem => (nomatch mem), ?_,
    fun _ mem => (nomatch mem), ?_, .nil, fun _ mem => nomatch mem⟩
  · intro n x found
    obtain ⟨-, rfl⟩ := only n x found
    exact .empty
  · intro n n' x x' other hn hn'
    obtain ⟨⟨callId, instr⟩, -⟩ := only n x hn.data
    obtain ⟨⟨callId', instr'⟩, -⟩ := only n' x' hn'.data
    exact absurd (hn.placed.eq hn'.placed (callId.symm.trans callId') (instr.symm.trans instr')) other

theorem skip (h : Frontier q s []) (pop : s.worklist.pop? = some (n, worklist)) (stats : Stats) :
    Frontier q { s with worklist, stats } [] := by
  obtain ⟨queue, processed⟩ := Worklist.pop?_ok pop
  have waits : ∀ n x, ({ s with worklist, stats } : Search).Waits n x → s.Waits n x := by
    rintro n x ⟨placed, fresh, data⟩
    refine ⟨placed, ?_, data⟩
    unfold Worklist.isProcessed at fresh ⊢
    rw [← processed]
    exact fresh
  refine ⟨h.drawn, fun k hk => h.queued k ?_, h.placed, h.kept, h.bits, ?_, .nil, fun _ mem => nomatch mem⟩
  · rw [queue]
    exact List.mem_cons_of_mem _ hk
  · intro n n' x x' other hn hn'
    exact h.waiting n n' x x' other (waits n x hn) (waits n' x' hn')

theorem expand (h : Frontier q s []) (regular : q.program.Regular)
    (pop : s.worklist.pop? = some (n, worklist)) (fresh : worklist.isProcessed n = false)
    (data : s.world.calls.data? n = some x) {limit : Nat} {w : World}
    (next : (x.next q limit).run.run s.world = (.ok xs, w)) (stats : Stats) :
    Frontier q ⟨w, worklist.mark n, stats⟩ xs := by
  obtain ⟨queue, processed⟩ := Worklist.pop?_ok pop
  have followed := ExecState.next_followed regular h.drawn (h.kept n x data) next
  have older : ∀ k y, w.calls.data? k = some y → s.world.calls.data? k = some y := by
    intro k y found
    rcases followed.calls with same | ⟨m, g, -, new⟩
    · exact same ▸ found
    · exact Instances.data?_withNew g (new ▸ found)
  have places : ∀ k, s.world.calls.Places k → w.calls.Places k := by
    intro k placed
    rcases followed.calls with same | ⟨m, g, -, new⟩
    · exact same ▸ placed
    · exact new ▸ placed.withNew m g
  have unmarked : s.worklist.isProcessed n = false := by
    unfold Worklist.isProcessed at fresh ⊢
    exact processed ▸ fresh
  have here : s.Waits n x := ⟨h.queued n (queue ▸ List.mem_cons_self), unmarked, data⟩
  have waits : ∀ k y, (⟨w, worklist.mark n, stats⟩ : Search).Waits k y → s.Waits k y ∧ n ≠ k := by
    rintro k y ⟨placed, unprocessed, found⟩
    have unprocessed := Bool.eq_false_iff.1 unprocessed
    rw [ne_eq, Worklist.isProcessed_mark, not_or] at unprocessed
    refine ⟨⟨?_, ?_, older k y found⟩, fun same => unprocessed.1 same.symm⟩
    · rcases followed.calls with same | ⟨m, g, -, new⟩
      · exact same ▸ placed
      · exact Instances.places_of_withNew (new ▸ placed) (older k y found)
    · have unprocessed := Bool.eq_false_iff.2 unprocessed.2
      unfold Worklist.isProcessed at unprocessed ⊢
      exact processed ▸ unprocessed
  refine ⟨?_, ?_, followed.placed, ?_, fun f mem => (followed.goesOn f mem).bits, ?_, followed.apart, ?_⟩
  · rcases followed.calls with same | ⟨m, g, graph, new⟩
    · exact same ▸ h.drawn
    · exact new ▸ h.drawn.withNew graph
  · intro k mem
    rw [Worklist.queue_mark] at mem
    exact places k (h.queued k (queue ▸ List.mem_cons_of_mem _ mem))
  · intro k y found
    exact h.kept k y (older k y found)
  · intro k k' y y' other hk hk'
    exact h.waiting k k' y y' other (waits k y hk).1 (waits k' y' hk').1
  · intro f mem k y hk
    obtain ⟨old, other⟩ := waits k y hk
    exact (h.waiting n k x y other here old).goesOn (followed.goesOn f mem)

theorem receive (h : Frontier q s (x :: xs)) (regular : q.program.Regular)
    (received : (Searching.receive o first x).run.run s = (.ok (), s')) : Frontier q s' xs := by
  obtain ⟨stored, c, calls, how, keep, world, worklist, -⟩ := Searching.receive_ok received
  obtain ⟨here, placed⟩ := List.forall_mem_cons.1 h.placed
  obtain ⟨bits, bitsRest⟩ := List.forall_mem_cons.1 h.bits
  obtain ⟨ahead, apart⟩ := List.pairwise_cons.1 h.apart
  obtain ⟨arriving, arrivingRest⟩ := List.forall_mem_cons.1 h.arriving
  have found : ∀ k, calls.data? k =
      if x.node.callId = k.callId ∧ x.node.instr = k.instr then some stored else s.world.calls.data? k :=
    Instances.data?_keep keep
  -- A node that waits afterwards is the target, or it waited before.
  have waits : ∀ k y, s'.Waits k y →
      (k = x.node ∧ y = stored ∧ s.worklist.isProcessed x.node = false) ∨ (k ≠ x.node ∧ s.Waits k y) := by
    rintro k y ⟨placed, fresh, data⟩
    rw [world] at placed data
    rw [worklist, Worklist.isProcessed_schedule] at fresh
    have placed := (Instances.places_keep keep).1 placed
    rw [found] at data
    split at data
    next same =>
      cases data
      obtain rfl := here.eq placed same.1 same.2
      exact .inl ⟨rfl, rfl, fresh⟩
    next differ =>
      refine .inr ⟨?_, placed, fresh, data⟩
      rintro rfl
      exact differ ⟨rfl, rfl⟩
  -- What excludes the incoming state and the one that waited there excludes the state that is kept.
  have excludes : s.worklist.isProcessed x.node = false → ∀ u : SymState, x.symbolic.Excludes u →
      (∀ previous, s.Waits x.node previous → previous.symbolic.Excludes u) → stored.symbolic.Excludes u := by
    intro fresh u incoming waiting
    cases how with
    | first => exact incoming
    | merged data merge =>
      obtain ⟨symbolic, -, -, -⟩ := ExecState.merge_ok merge
      obtain ⟨l, ts, M, merged⟩ := SymState.merge_ok symbolic
      exact merged.excludes (waiting _ ⟨here, fresh, data⟩) incoming
  have storedBits : stored.symbolic.memory.HasBits q.program.Names := by
    cases how with
    | first => exact bits
    | merged data merge =>
      obtain ⟨symbolic, -, -, -⟩ := ExecState.merge_ok merge
      obtain ⟨l, ts, M, merged⟩ := SymState.merge_ok symbolic
      exact merged.hasBits regular.agree (h.kept _ _ data) bits
  refine ⟨?_, ?_, ?_, ?_, bitsRest, ?_, apart, ?_⟩
  · rw [world]
    exact h.drawn.keep keep
  · intro k mem
    rw [worklist] at mem
    rw [world, Instances.places_keep keep]
    rcases Worklist.mem_queue_schedule.1 mem with mem | ⟨rfl, -⟩
    · exact h.queued k mem
    · exact here
  · intro y mem
    rw [world, Instances.places_keep keep]
    exact placed y mem
  · intro k y data
    rw [world, found] at data
    split at data
    · cases data
      exact storedBits
    · exact h.kept k y data
  · intro k k' y y' other hk hk'
    rcases waits k y hk with ⟨rfl, rfl, fresh⟩ | ⟨differ, old⟩
    · rcases waits k' y' hk' with ⟨same, -, -⟩ | ⟨differ, old⟩
      · exact absurd same.symm other
      · exact excludes fresh _ (arriving k' y' old) fun previous waited =>
          h.waiting _ k' previous y' other waited old
    · rcases waits k' y' hk' with ⟨rfl, rfl, fresh⟩ | ⟨_, old'⟩
      · exact (excludes fresh _ (arriving k y old) fun previous waited =>
          h.waiting _ k previous y (Ne.symm other) waited old).symm
      · exact h.waiting k k' y y' other old old'
  · intro p mem k y hk
    rcases waits k y hk with ⟨rfl, rfl, fresh⟩ | ⟨-, old⟩
    · exact (excludes fresh _ (ahead p mem) fun previous waited =>
        (arrivingRest p mem _ previous waited).symm).symm
    · exact arrivingRest p mem k y old

end Frontier

/-- At every moment of a search the frontier is apart. -/
theorem Moment.frontier (regular : t.query.program.Regular) (h : Moment t m s first pending) :
    Frontier t.query s pending := by
  induction h with
  | start start => exact .start start
  | skip _ pop _ ih => exact ih.skip pop _
  | expand _ pop fresh data _ next ih => exact ih.expand regular pop fresh data next _
  | receive _ received ih => exact ih.receive regular received

/-- No assignment satisfies the path conditions of two nodes that are queued and not processed, and none
satisfies an incoming state together with the one that it is merged into, whose path condition is then
not true wherever the incoming state is possible. -/
theorem frontier_exclusive (regular : t.query.program.Regular) (moment : Moment t m s first pending)
    (σ : Assignment) :
    (∀ n n' x x', n ∈ s.worklist.queue → n' ∈ s.worklist.queue → n ≠ n' →
      s.worklist.isProcessed n = false → s.worklist.isProcessed n' = false →
      s.world.calls.data? n = some x → s.world.calls.data? n' = some x' →
      ¬ (x.symbolic.Satisfied σ ∧ x'.symbolic.Satisfied σ)) ∧
    ∀ incoming rest previous, pending = incoming :: rest →
      s.worklist.isProcessed incoming.node = false → s.world.calls.data? incoming.node = some previous →
      ¬ (previous.symbolic.Satisfied σ ∧ incoming.symbolic.Satisfied σ) ∧
        ∀ l, incoming.symbolic.Satisfied σ → ¬ (previous.symbolic.pathCondition l).Holds σ := by
  have frontier := moment.frontier regular
  have models : ∀ {x : SymState}, x.Satisfied σ → σ.valuation.Models x.constraints :=
    fun satisfied t mem => Term.holds_iff_denote.1 (satisfied t mem)
  refine ⟨?_, ?_⟩
  · rintro n n' x x' hn hn' other fresh fresh' data data' ⟨satisfied, satisfied'⟩
    exact frontier.waiting n n' x x' other ⟨frontier.queued n hn, fresh, data⟩
      ⟨frontier.queued n' hn', fresh', data'⟩ σ.valuation (models satisfied) (models satisfied')
  · rintro incoming rest previous rfl fresh data
    have waits : s.Waits incoming.node previous := ⟨frontier.placed _ List.mem_cons_self, fresh, data⟩
    have excludes := frontier.arriving incoming List.mem_cons_self _ previous waits σ.valuation
    refine ⟨fun ⟨satisfied, satisfied'⟩ => excludes (models satisfied') (models satisfied), ?_⟩
    intro l satisfied guard
    exact excludes (models satisfied) (Term.denote_andAll_iff.1 (Term.holds_iff_denote.1 guard))

section StoredFlag

theorem Moment.after? {n : Nat} (h : Moment t m s first []) (run : s.after? t n = some s') :
    ∃ first', Moment t m s' first' [] :=
  after?_invariant (fun s => ∃ first, Moment t m s first []) (fun _ _ ⟨_, moment⟩ running => moment.step running)
    ⟨first, h⟩ run

def storing : Method := ⟨"A", "run", [], .void⟩

/-- Stores a one into a field of a type, reads the field as a number, and switches on it. -/
def storingBody (ty : Ty) : Body where
  method := storing
  locals := [⟨"k", .int⟩]
  instructions := [
    .assign (.staticField ⟨"A", "f", ty, true⟩) (.use (.const (.int 1))),
    .assign (.loc ⟨"k", .int⟩) (.staticField ⟨"A", "f", .int, true⟩),
    .switch (.loc ⟨"k", .int⟩) (.lookup [2, 1] [3, 4]) 5,
    .goto 5, .nop, .retVoid]
  successors := [[1], [2], [3, 4, 5], [5], [5], []]
  nonempty := List.cons_ne_nil _ _
  successors_length := rfl
  edges_lt := show ∀ i ∈ [1, 2, 3, 4, 5, 5, 5], i < 6 by decide

def storingTask (ty : Ty) : Task where
  query := {
    program := .ofBodies [storingBody ty] []
    path := ⟨[⟨.sink, storing, 5, none, none⟩], by decide⟩ }
  limit := 1
  witness := false
  solver := ⟨"lightweight", fun constraints => .ok (ModelSearch.check 100 constraints)⟩

theorem storing_body {ty : Ty} {m : Method} {b : Body}
    (h : (storingTask ty).query.program.body? m = some b) : b = storingBody ty :=
  Program.eq_of_body?_ofBodies h

theorem storing_derived {ty : Ty} {m : Method} {b : Body}
    (h : (storingTask ty).query.program.body? m = some b) : b.successors = deriveSuccessors b.instructions := by
  rw [storing_body h]
  rfl

theorem storing_numbers {ty : Ty} {m : Method} {b : Body}
    (h : (storingTask ty).query.program.body? m = some b) :
    ∀ i ∈ b.instructions, i.switchesOnNumbers = true := by
  rw [storing_body h]
  exact List.all_eq_true.1 rfl

/-- Whether after the switch the nodes of both its cases wait, with states that pass a test. -/
def bothWait (ty : Ty) (test : ExecState → ExecState → Bool) : Bool :=
  match Search.start (storingTask ty) storing with
  | .error _ => false
  | .ok s =>
    match s.after? (storingTask ty) 3 with
    | none => false
    | some s =>
      s.worklist.queue.contains ⟨0, storing, 3⟩ && s.worklist.queue.contains ⟨0, storing, 4⟩ &&
        !s.worklist.isProcessed ⟨0, storing, 3⟩ && !s.worklist.isProcessed ⟨0, storing, 4⟩ &&
      match s.world.calls.data? ⟨0, storing, 3⟩, s.world.calls.data? ⟨0, storing, 4⟩ with
      | some x, some x' => test x x'
      | _, _ => false

/-- Two different nodes are queued and not processed, with states. -/
structure TwoWait (s : Search) (n n' : Node) (x x' : ExecState) : Prop where
  other : n ≠ n'
  queued : n ∈ s.worklist.queue ∧ n' ∈ s.worklist.queue
  fresh : s.worklist.isProcessed n = false ∧ s.worklist.isProcessed n' = false
  data : s.world.calls.data? n = some x ∧ s.world.calls.data? n' = some x'

theorem exists_twoWait {ty : Ty} {test : ExecState → ExecState → Bool} (h : bothWait ty test = true) :
    ∃ s first x x', Moment (storingTask ty) storing s first [] ∧
      TwoWait s ⟨0, storing, 3⟩ ⟨0, storing, 4⟩ x x' ∧ test x x' = true := by
  unfold bothWait at h
  split at h
  · cases h
  next s₀ start =>
    split at h
    · cases h
    next s run =>
      obtain ⟨first, moment⟩ := (Moment.start start).after? run
      simp only [Bool.and_eq_true, Bool.not_eq_true', List.contains_iff_mem] at h
      obtain ⟨⟨⟨⟨queued, queued'⟩, fresh⟩, fresh'⟩, tested⟩ := h
      split at tested
      next x x' data data' =>
        exact ⟨s, first, x, x', moment, ⟨by decide, ⟨queued, queued'⟩, ⟨fresh, fresh'⟩, data, data'⟩, tested⟩
      next => cases tested

def noFlag : Assignment := .ofList [("1:A.f", .array (.const (.bool false)))]

/-- A field that is stored as a truth value and read as a number makes two cases of a switch true at once,
so that two nodes wait whose path conditions one assignment satisfies. -/
theorem frontier_overlaps_storedFlag :
    (∀ m b, (storingTask .boolean).query.program.body? m = some b →
      b.successors = deriveSuccessors b.instructions ∧ ∀ i ∈ b.instructions, i.switchesOnNumbers = true) ∧
    ∃ s first n n' x x', Moment (storingTask .boolean) storing s first [] ∧ TwoWait s n n' x x' ∧
      noFlag.WellSorted (x.symbolic.constraints ++ x'.symbolic.constraints) ∧
      x.symbolic.Satisfied noFlag ∧ x'.symbolic.Satisfied noFlag := by
  refine ⟨fun m b found => ⟨storing_derived found, storing_numbers found⟩, ?_⟩
  have overlap : bothWait .boolean (fun x x' =>
      noFlag.satisfies (x.symbolic.constraints ++ x'.symbolic.constraints)) = true := by decide +kernel
  obtain ⟨s, first, x, x', moment, two, satisfied⟩ := exists_twoWait overlap
  obtain ⟨sorted, holds⟩ := Assignment.of_satisfies satisfied
  exact ⟨s, first, _, _, x, x', moment, two, sorted, List.forall_mem_append.1 holds⟩

/-- Stored and read as a number, the field leaves the same two nodes with states that exclude each other. -/
theorem frontier_exclusive_storedNumber :
    ∃ s first n n' x x', Moment (storingTask .int) storing s first [] ∧ TwoWait s n n' x x' ∧
      ∀ σ, ¬ (x.symbolic.Satisfied σ ∧ x'.symbolic.Satisfied σ) := by
  have regular : (storingTask .int).query.program.Regular := by
    refine ⟨fun m b => storing_derived, fun m b => storing_numbers, ?_⟩
    intro m b m' b' found found'
    rw [storing_body found, storing_body found']
    decide
  have wait : bothWait .int (fun _ _ => true) = true := by decide +kernel
  obtain ⟨s, first, x, x', moment, two, -⟩ := exists_twoWait wait
  refine ⟨s, first, _, _, x, x', moment, two, fun σ => ?_⟩
  exact (frontier_exclusive regular moment σ).1 _ _ x x' two.queued.1 two.queued.2 two.other two.fresh.1
    two.fresh.2 two.data.1 two.data.2

end StoredFlag
end Search
end SinkReach
