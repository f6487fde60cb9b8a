import SinkReach.Proofs.Analysis.CallStacks
import SinkReach.Proofs.Naming.Step
import SinkReach.Proofs.Step.MergeExact

/-!
No name is captured. At every moment of a search the context accounts for all constants in the states that
are held, so whatever it gives out from then on occurs in none of them.
-/
namespace SinkReach

namespace ExecState

/-- All terms of the state, those of the parameters on its stack included. -/
def terms (x : ExecState) : List Term :=
  x.symbolic.terms ++ (x.stack.top :: x.stack.below).flatMap fun f => f.parameters.map fun p => p.2.term

/-- Names of the constants that occur in the state. -/
def names (x : ExecState) : List String := (Term.varsAll x.terms).map (·.1)

theorem Over.of_mem_names {N : String → Prop} {x : ExecState} (h : x.Over N) {name : String}
    (mem : name ∈ x.names) : N name := by
  obtain ⟨y, occurs, rfl⟩ := List.mem_map.1 mem
  obtain ⟨t, listed, occurs⟩ := Term.mem_varsAll.1 occurs
  refine (?_ : t.Over N) y occurs
  rcases List.mem_append.1 listed with symbolic | parameter
  · rcases List.mem_append.1 symbolic with memory | array
    · rcases List.mem_append.1 memory with condition | value
      · exact h.symbolic.constraints t condition
      · obtain ⟨e, entry, rfl⟩ := List.mem_map.1 value
        exact h.symbolic.memory.locals e entry
    · obtain ⟨e, entry, rfl⟩ := List.mem_map.1 array
      exact h.symbolic.memory.fields e entry
  · obtain ⟨f, frame, value⟩ := List.mem_flatMap.1 parameter
    obtain ⟨p, bound, rfl⟩ := List.mem_map.1 value
    exact h.parameters f frame p bound

end ExecState

/-- The operation makes a constant of a name that no other one has. -/
inductive Machine.Mints (c : Context) (name : String) : Prop
  | unknown {M M' : Machine} {c' : Context} {l l' : Label} {s : TermSort} :
    (freshVar l s).Yields M c (.var l' name s) M' c' → Mints c name
  | literal {M M' : Machine} {c' : Context} {l l' : Label} {s : TermSort} :
    (freshLiteral l s).Yields M c (.var l' name s) M' c' → Mints c name

/-- What is made in a context was not issued before. -/
theorem Machine.Mints.not_accounted {c₀ c : Context} {name : String} (h : Mints c name) (le : c₀.Before c) :
    ¬ c₀.Accounts name := by
  have unaccounted {name : String} {d : Char} (issued : ¬ c.Issued name) (initial : initialOf name = some d)
      (letter : d.isDigit = false) (tags : name ≠ Registry.arrayName) : ¬ c₀.Accounts name := by
    rintro (old | same | ⟨k, same⟩)
    · exact issued (old.mono le)
    · exact tags same
    · exact Chunk.id_ne_of_initial initial letter same.symm
  cases h with
  | unknown run =>
    cases (Run.yields_context.1 run).1
    exact unaccounted c.not_issued_local (initialOf_localName _) rfl c.issued_nextLocal.ne_arrayName
  | literal run =>
    cases (Run.yields_context.1 run).1
    exact unaccounted c.not_issued_unbounded (initialOf_unboundedName _) rfl c.issued_nextUnbounded.ne_arrayName

namespace Snapshot

variable {t : Task} {m : Method} {p p' : Snapshot} {x : ExecState}

def context (p : Snapshot) : Context := p.search.world.context

/-- The context accounts for all constants in the states that are held. -/
def Accounted (p : Snapshot) : Prop := ∀ x, p.Holds x → x.Over p.context.Accounts

namespace Accounted

theorem start {s : Search} (h : Search.start t m = .ok s) : Accounted (start s) := by
  obtain ⟨-, only⟩ := Search.start_kept h
  rintro x (mem | ⟨n, data⟩)
  · cases mem
  · obtain ⟨-, rfl⟩ := only n x data
    exact .initial _

theorem receive {xs : List ExecState} {s : Search} (h : p.Accounted) (pending : p.pending = x :: xs)
    (received : (Searching.receive t.overflow p.first x).run.run p.search = (.ok (), s)) :
    Accounted ⟨s, p.first, xs⟩ := by
  obtain ⟨stored, c, calls, how, keep, world, -, -⟩ := Searching.receive_ok received
  have incoming : p.Holds x := .inl (pending ▸ List.mem_cons_self)
  have stores : p.context.Before c ∧ stored.Over c.Accounts := by
    cases how with
    | first => exact ⟨.refl _, h x incoming⟩
    | merged data merge => exact ExecState.merge_names (h _ (.inr ⟨_, data⟩)) (h x incoming) merge
  obtain ⟨before, named⟩ := stores
  have context : (⟨s, p.first, xs⟩ : Snapshot).context = c := by rw [Snapshot.context, world]
  intro u hu
  rw [context]
  rcases hu with mem | ⟨k, data⟩
  · exact (h u (.inl (pending ▸ List.mem_cons_of_mem _ mem))).later before
  · have data : calls.data? k = some u := by rw [← data, Snapshot.calls, world]
    rcases Instances.put_or_kept keep data with ⟨-, rfl⟩ | old
    · exact named
    · exact (h u (.inr ⟨k, old⟩)).later before

/-- Every move keeps it so. -/
theorem moves (h : p.Accounted) (moves : Moves t p p') : p'.Accounted := by
  cases moves with
  | receive pending received => exact h.receive pending received
  | skip pending _ _ => exact fun u hu => h u (hu.elim (fun mem => nomatch mem) .inr)
  | expand pending _ _ data _ next =>
    obtain ⟨before, named⟩ := ExecState.next_names (h _ (.inr ⟨_, data⟩)) next
    rintro u (mem | ⟨k, found⟩)
    · exact named u mem
    · exact (h u (.inr ⟨k, (ExecState.next_transition next).data? found⟩)).later before

end Accounted

theorem IsMoment.accounted (h : p.IsMoment t m) : p.Accounted := h.invariant (fun _ started => .start started) .moves

/-- No capture: every constant in a state that is held is an unknown which the context has issued, the array
of tags or the array of a field, so what is made anew, then or later, occurs in no such state; and the arrays
of fields are told apart from the others, and from each other by class and name, whatever these are. -/
theorem names_apart (moment : p.IsMoment t m) (held : p.Holds x) :
    (∀ name ∈ x.names, (∃ n < p.context.locals, name = localName n) ∨
      (∃ n < p.context.unbounded, name = unboundedName n) ∨ name = Registry.arrayName ∨
        ∃ f : Field, name = (Chunk.ofField f).id) ∧
    (∀ c name, p.context.Before c → Machine.Mints c name → name ∉ x.names) ∧
    (∀ (k : Chunk) (n : Nat), k.id ≠ localName n ∧ k.id ≠ unboundedName n ∧ k.id ≠ Registry.arrayName) ∧
    ∀ f g : Field, (Chunk.ofField f).id = (Chunk.ofField g).id ↔ f.className = g.className ∧ f.name = g.name := by
  have named := moment.accounted x held
  refine ⟨fun name mem => ?_, fun c name le mints mem => ?_, fun k n => ?_, fun f g => ⟨Chunk.id_injective, ?_⟩⟩
  · rcases named.of_mem_names mem with (⟨n, less, same⟩ | ⟨n, less, same⟩) | tags | ⟨k, same⟩
    · exact .inl ⟨n, less, same⟩
    · exact .inr (.inl ⟨n, less, same⟩)
    · exact .inr (.inr (.inl tags))
    · exact .inr (.inr (.inr ⟨⟨k.className, k.fieldName, k.ty, false⟩, same⟩))
  · exact mints.not_accounted le (named.of_mem_names mem)
  · exact ⟨Chunk.id_ne_of_initial (initialOf_localName n) rfl,
      Chunk.id_ne_of_initial (initialOf_unboundedName n) rfl, k.id_ne_arrayName⟩
  · rintro ⟨classes, names⟩
    simp only [Chunk.ofField, Chunk.id, classes, names]

/-- The callee's parameter is the unknown that its caller was entered with, and the next name is another one. -/
theorem names_apart_picking : ∃ (p : Snapshot) (x : ExecState), p.IsMoment callingTask calling ∧ p.Holds x ∧
    localName 0 ∈ x.names ∧ 0 < p.context.locals ∧ localName p.context.locals ∉ x.names := by
  have enters : receivesAfter callingTask calling 3 (fun x => x.names.contains (localName 0)) = true := by
    decide +kernel
  obtain ⟨p, x, after, mem, named⟩ := exists_received enters
  have named : localName 0 ∈ x.names := List.contains_iff_mem.1 named
  have moment := isMoment_of_nth? after
  obtain ⟨known, fresh, -⟩ := names_apart moment (.inl mem)
  refine ⟨p, x, moment, .inl mem, named, ?_, fresh p.context _ (.refl _) ?_⟩
  · rcases known _ named with ⟨n, less, -⟩ | ⟨n, -, same⟩ | same | ⟨f, same⟩
    · exact Nat.zero_lt_of_lt less
    · exact absurd same (localName_ne_unboundedName 0 n)
    · exact absurd same (Context.issued_nextLocal {}).ne_arrayName
    · exact absurd same.symm (Chunk.id_ne_of_initial (initialOf_localName 0) rfl)
  · exact .unknown (M := .start default) (l := 0) (s := .bool) rfl

end Snapshot
end SinkReach
