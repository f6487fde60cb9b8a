import Mathlib.Order.Bounds.Basic
import SinkReach.Proofs.Step.Advance
import SinkReach.Proofs.Step.MergeExact
import SinkReach.Proofs.Typing.Sorts

/-!
A symbolic memory is read like a concrete one. Addresses are terms, so that which store a read sees is up to
the assignment: of the stores to the field since its array was last replaced it is the latest whose index
has the value of the address that is read. What no update decides is read as from the state before.
-/
namespace SinkReach

variable {σ : Assignment} {s : SymState} {u : Update} {us : List Update} {c : Chunk} {a t : Term} {v w : Value}
  {r : ArrayValue} {ts : List Term} {l x y : Label}

theorem Assignment.WellSorted.of_subset {ts' : List Term} (h : σ.WellSorted ts) (sub : ts' ⊆ ts) :
    σ.WellSorted ts' := by
  intro x hx
  obtain ⟨t, mem, occurs⟩ := Term.mem_varsAll.1 hx
  exact h x (Term.mem_varsAll.2 ⟨t, sub mem, occurs⟩)

namespace Term

/-- The address that a term stands for. -/
def address? (σ : Assignment) (t : Term) : Option Nat :=
  match t.value? σ with
  | some (.bitVec address _) => some address
  | _ => none

/-- A well-sorted term has a value of its sort. -/
theorem OfSort.exists_value {sort : TermSort} (h : t.OfSort sort) (bound : σ.WellSorted ts) (mem : t ∈ ts) :
    ∃ v, t.value? σ = some v ∧ v.hasSort sort = true := by
  obtain ⟨rfl, sorted⟩ := h
  rw [value?_eq_denote, bound.completed mem]
  exact denote_hasSort σ.completed_wellSorted sorted

theorem OfSort.exists_array {i e : TermSort} (h : t.OfSort (.array i e)) (bound : σ.WellSorted ts)
    (mem : t ∈ ts) : ∃ r, t.value? σ = some (.array r) := by
  obtain ⟨v, value, sort⟩ := h.exists_value bound mem
  obtain ⟨r, rfl, -⟩ := Value.array_of_hasSort sort
  exact ⟨r, value⟩

theorem OfSort.exists_address (h : t.OfSort Address.sort) (bound : σ.WellSorted ts) (mem : t ∈ ts) :
    ∃ address, t.value? σ = some (.bitVec address Address.width) ∧ t.address? σ = some address := by
  obtain ⟨v, value, sort⟩ := h.exists_value bound mem
  obtain ⟨address, rfl, -⟩ := Value.bitVec_of_hasSort sort
  exact ⟨address, value, by rw [address?, value]⟩

theorem address?_eq {address width : Nat} (value : t.value? σ = some (.bitVec address width)) :
    t.address? σ = some address := by rw [address?, value]

theorem value?_select (array : t.value? σ = some (.array r)) (index : a.value? σ = some w) :
    (Term.select x t a).value? σ = some (r.get w) := by
  rw [select, value?_binary, array, index]
  rfl

theorem value?_write {e : Term} (array : t.value? σ = some (.array r)) (index : a.value? σ = some w)
    (element : e.value? σ = some v) : (Term.store x t a e).value? σ = some (.array (r.set w v)) := by
  rw [store, value?_store, array, index, element]
  rfl

end Term

namespace Update

def terms : Update → List Term
  | .constraint condition => [condition]
  | .allocate _ => []
  | .bind _ v => [v.term]
  | .store _ index element => [index, element]
  | .set _ array => [array]

/-- Each term is a well-sorted one of the sort that its place asks for. -/
def WellSorted : Update → Prop
  | .constraint condition => condition.OfSort .bool
  | .allocate _ => True
  | .bind _ v => v.term.OfSort v.ty.sort
  | .store c index element => index.OfSort Address.sort ∧ element.OfSort c.ty.sort
  | .set c array => array.OfSort c.sort

/-- The element of a field at an address, if the update decides it: a store does whose index is the same
address, and an array that replaces the field's. -/
def decides? (σ : Assignment) (c : Chunk) (a : Term) : Update → Option Value
  | .store d index element => if d == c ∧ index.address? σ = a.address? σ then element.value? σ else none
  | .set d array => if d == c then (Term.select 0 array a).value? σ else none
  | _ => none

/-- What the update binds a local to. -/
def binds? (id : LocalId) : Update → Option SymValue
  | .bind id' v => if id' = id then some v else none
  | _ => none

end Update

namespace SymState

/-- The field's array has a value, with the given element at the address. -/
def Reads (σ : Assignment) (s : SymState) (c : Chunk) (address : Value) (element : Value) : Prop :=
  ∃ r, (∀ y, (s.memory.array y c).value? σ = some (.array r)) ∧ r.get address = element

theorem Reads.select (h : s.Reads σ c w v) (address : a.value? σ = some w) (x y : Label) :
    (Term.select x (s.memory.array y c) a).value? σ = some v := by
  obtain ⟨r, array, rfl⟩ := h
  exact Term.value?_select (array y) address

/-- A store is read at its own address; every other one of the field, and all other fields, stay. -/
theorem reads_store {d : Chunk} {i e : Term} {k address : Nat} (l : Label)
    (index : i.value? σ = some (.bitVec k Address.width)) (element : e.value? σ = some v)
    (before : s.Reads σ c (.bitVec address Address.width) w) :
    (s.update l (.store d i e)).Reads σ c (.bitVec address Address.width)
      (if d == c ∧ k = address then v else w) := by
  obtain ⟨r, array, rfl⟩ := before
  by_cases same : (d == c) = true
  · refine ⟨r.set (.bitVec k Address.width) v, fun y => ?_, ?_⟩
    · have old := (s.memory.array_value? same (l + 1) y).trans (array y)
      rw [update, withMemory, Memory.array_store, if_pos same]
      exact Term.value?_write old index element
    · rw [ArrayValue.get_set rfl, Value.same_bitVec]
      simp only [same, beq_iff_eq, true_and]
  · refine ⟨r, fun y => ?_, by rw [if_neg fun both => same both.1]⟩
    rw [update, withMemory, Memory.array_store, if_neg same]
    exact array y

/-- A replaced array is read in place of the field's. -/
theorem reads_set {d : Chunk} {r : ArrayValue} (l : Label) (value : t.value? σ = some (.array r))
    (before : s.Reads σ c w v) :
    (s.update l (.set d t)).Reads σ c w (if d == c then r.get w else v) := by
  obtain ⟨r', array, rfl⟩ := before
  by_cases same : (d == c) = true
  · refine ⟨r, fun y => ?_, by rw [if_pos same]⟩
    rw [update, withMemory, Memory.array_setArray, if_pos same]
    exact value
  · refine ⟨r', fun y => ?_, by rw [if_neg same]⟩
    rw [update, withMemory, Memory.array_setArray, if_neg same]
    exact array y

/-- An update decides the element that is read, or leaves it. -/
theorem reads_update {address : Nat} (l : Label) (sorted : u.WellSorted) (bound : σ.WellSorted u.terms)
    (value : a.value? σ = some (.bitVec address Address.width))
    (before : s.Reads σ c (.bitVec address Address.width) v) :
    ∃ v', (s.update l u).Reads σ c (.bitVec address Address.width) v' ∧
      (u.decides? σ c a).or (some v) = some v' := by
  cases u with
  | constraint | allocate | bind => exact ⟨v, before, rfl⟩
  | store d i e =>
    obtain ⟨k, index, known⟩ := sorted.1.exists_address bound (by simp [Update.terms])
    obtain ⟨v', element, -⟩ := sorted.2.exists_value bound (by simp [Update.terms])
    refine ⟨_, reads_store l index element before, ?_⟩
    simp only [Update.decides?, known, Term.address?_eq value, Option.some_inj, element]
    split <;> rfl
  | set d t =>
    obtain ⟨r, array⟩ := Term.OfSort.exists_array sorted bound (by simp [Update.terms])
    refine ⟨_, reads_set l array before, ?_⟩
    rw [Update.decides?, Term.value?_select array value]
    split <;> rfl

/-- Of all updates the latest that decides gives the element. -/
theorem reads_updateAll {address : Nat} (l : Label) (sorted : ∀ u ∈ us, u.WellSorted)
    (bound : ∀ u ∈ us, σ.WellSorted u.terms) (value : a.value? σ = some (.bitVec address Address.width))
    (before : s.Reads σ c (.bitVec address Address.width) v) :
    ∃ v', (s.updateAll l us).Reads σ c (.bitVec address Address.width) v' ∧
      (us.reverse.findSome? (Update.decides? σ c a)).or (some v) = some v' := by
  induction us generalizing l s v with
  | nil => exact ⟨v, before, rfl⟩
  | cons u us ih =>
    obtain ⟨first, sorted⟩ := List.forall_mem_cons.1 sorted
    obtain ⟨bound₁, bound⟩ := List.forall_mem_cons.1 bound
    obtain ⟨v₁, read, decided⟩ := reads_update l first bound₁ value before
    obtain ⟨v', reads, latest⟩ := ih (l + 2) sorted bound read
    refine ⟨v', reads, ?_⟩
    rw [List.reverse_cons, List.findSome?_append, List.findSome?_singleton, Option.or_assoc, decided, latest]

/-- A local has the value of its latest binding, or the one that it had. -/
theorem local?_latest (l : Label) (s : SymState) (us : List Update) (id : LocalId) :
    (s.updateAll l us).memory.local? id =
      (us.reverse.findSome? (Update.binds? id)).or (s.memory.local? id) := by
  induction us generalizing l s with
  | nil => rfl
  | cons u us ih =>
    rw [updateAll, ih, List.reverse_cons, List.findSome?_append, List.findSome?_singleton, Option.or_assoc]
    congr 1
    cases u with
    | constraint | allocate | store | set => rfl
    | bind id' v =>
      rw [update, withMemory, Memory.local?_bind, Update.binds?]
      split <;> rfl

/-- The next address is the greatest of the original one and those that the updates allocate up to. -/
theorem nextAddress_updateAll_isGreatest (l : Label) (s : SymState) (us : List Update) :
    IsGreatest {n | n = s.nextAddress ∨ .allocate n ∈ us} (s.updateAll l us).nextAddress := by
  constructor
  · induction us generalizing l s with
    | nil => exact .inl rfl
    | cons u us ih =>
      rcases ih (l + 2) (s.update l u) with same | mem
      · rw [updateAll, same]
        cases u with
        | constraint | bind | store | set => exact .inl rfl
        | allocate n =>
          rcases Nat.le_total s.nextAddress n with le | le
          · exact .inr (List.mem_cons.2 (.inl (congrArg Update.allocate (Nat.max_eq_right le))))
          · exact .inl (Nat.max_eq_left le)
      · exact .inr (List.mem_cons_of_mem _ mem)
  · rintro n (rfl | mem)
    · exact nextAddress_le_updateAll ..
    · exact le_nextAddress_of_allocate mem

/-- After any well-sorted updates, a field is read at an address like a concrete memory: of its stores with
that address and the arrays that replaced its own, the latest gives the element, or else the state before
does. Locals have their latest bindings, constraints are appended in order, and the next address is the
greatest of all. -/
theorem updateAll_refines (l x y : Label) {element : TermSort}
    (array : (s.memory.array y c).OfSort (.array Address.sort element))
    (address : a.OfSort Address.sort) (sorted : ∀ u ∈ us, u.WellSorted)
    (bound : σ.WellSorted (s.memory.array y c :: a :: us.flatMap Update.terms)) :
    (∃ v, (Term.select x ((s.updateAll l us).memory.array y c) a).eval σ = .ok v ∧
      (us.reverse.findSome? (Update.decides? σ c a)).or ((Term.select x (s.memory.array y c) a).value? σ) =
        some v) ∧
    (∀ id, (s.updateAll l us).memory.local? id =
      (us.reverse.findSome? (Update.binds? id)).or (s.memory.local? id)) ∧
    (s.updateAll l us).constraints = s.constraints ++ Update.conditions us ∧
    IsGreatest {n | n = s.nextAddress ∨ .allocate n ∈ us} (s.updateAll l us).nextAddress := by
  refine ⟨?_, local?_latest l s us, constraints_updateAll l s us, nextAddress_updateAll_isGreatest l s us⟩
  obtain ⟨k, value, -⟩ := address.exists_address bound (by simp)
  obtain ⟨r, original⟩ := array.exists_array bound (by simp)
  have before : s.Reads σ c (.bitVec k Address.width) (r.get (.bitVec k Address.width)) :=
    ⟨r, fun y' => (s.memory.array_value? BEq.rfl y' y).trans original, rfl⟩
  have each : ∀ u ∈ us, σ.WellSorted u.terms := fun u mem =>
    Assignment.WellSorted.of_subset bound fun t named =>
      List.mem_cons_of_mem _ (List.mem_cons_of_mem _ (List.mem_flatMap.2 ⟨u, mem, named⟩))
  obtain ⟨v, reads, latest⟩ := reads_updateAll l sorted each value before
  refine ⟨v, Term.value?_eq_some.1 (reads.select value x y), ?_⟩
  rw [before.select value x y]
  exact latest

/-- Writes through two references to fields of two names, of which one is declared with two types. -/
def scoreWrites : List Update := [
  .store ⟨"A", "score", .int⟩ (.var 0 "p" Address.sort) (.ofInt 0 5 32),
  .store ⟨"A", "rank", .int⟩ (.var 0 "p" Address.sort) (.ofInt 0 9 32),
  .allocate 4,
  .store ⟨"A", "score", .ref "B"⟩ (.var 0 "q" Address.sort) (.ofInt 0 7 32)]

/-- The scores at the start are all 1. -/
def pointers (p q : Nat) : Assignment :=
  ⟨[("1:A.score", .array (.const (.bitVec 1 32))), ("p", .bitVec p 32), ("q", .bitVec q 32)]⟩

/-- What is read at the first reference depends on whether the second one is the same. -/
theorem updateAll_refines_scores :
    (Term.select 0 ((SymState.initial.updateAll 0 scoreWrites).memory.array 0 ⟨"A", "score", .int⟩)
      (.var 0 "p" Address.sort)).eval (pointers 3 3) = .ok (.bitVec 7 32) ∧
    (Term.select 0 ((SymState.initial.updateAll 0 scoreWrites).memory.array 0 ⟨"A", "score", .int⟩)
      (.var 0 "p" Address.sort)).eval (pointers 3 2) = .ok (.bitVec 5 32) := by
  have array : (SymState.initial.memory.array 0 ⟨"A", "score", .int⟩).OfSort (.array Address.sort (.bitVec 32)) :=
    ⟨rfl, rfl⟩
  have address : (Term.var 0 "p" Address.sort).OfSort Address.sort := ⟨rfl, rfl⟩
  have sorted : ∀ u ∈ scoreWrites, u.WellSorted := by
    intro u mem
    simp only [scoreWrites, List.mem_cons, List.not_mem_nil, or_false] at mem
    rcases mem with rfl | rfl | rfl | rfl
    · exact ⟨⟨rfl, rfl⟩, ⟨rfl, rfl⟩⟩
    · exact ⟨⟨rfl, rfl⟩, ⟨rfl, rfl⟩⟩
    · trivial
    · exact ⟨⟨rfl, rfl⟩, ⟨rfl, rfl⟩⟩
  have bound : ∀ q < 2 ^ 32, (pointers 3 q).WellSorted (SymState.initial.memory.array 0 ⟨"A", "score", .int⟩ ::
      .var 0 "p" Address.sort :: scoreWrites.flatMap Update.terms) := by
    intro q less x hx
    have named : x ∈ [("1:A.score", TermSort.array Address.sort (.bitVec 32)), ("p", Address.sort),
      ("p", Address.sort), ("p", Address.sort), ("q", Address.sort)] := hx
    simp only [List.mem_cons, List.not_mem_nil, or_false, or_self_left] at named
    rcases named with rfl | rfl | rfl
    · exact ⟨.array (.const (.bitVec 1 32)), rfl, rfl⟩
    · exact ⟨.bitVec 3 32, rfl, rfl⟩
    · exact ⟨.bitVec q 32, rfl, Value.hasSort_bitVec less⟩
  constructor
  · obtain ⟨v, value, latest⟩ := (updateAll_refines 0 0 0 array address sorted (bound 3 (by decide))).1
    cases latest
    exact value
  · obtain ⟨v, value, latest⟩ := (updateAll_refines 0 0 0 array address sorted (bound 2 (by decide))).1
    cases latest
    exact value

end SymState
end SinkReach
