import Mathlib.Data.List.Permutation
import SinkReach.Proofs.Route.Edges

/-!
What a walk of a pruned graph has visited when it arrives at the last key. A leg adds edges only out of
its key and out of vertices that no leg entered before, so that the rest of what was entered earlier is
left as it was. Where ranks do not fall from key to key, a walk therefore gets out of what the earlier
legs entered only through their key, and visits the keys in order. A key that ranks below an earlier one
may be met on the way to that one.
-/
namespace SinkReach

theorem Visits.tail {vs keys : List Nat} {key : Nat} (h : Visits vs (key :: keys)) : Visits vs keys := by
  induction vs with
  | nil => cases h
  | cons v vs ih =>
    cases h with
    | here rest => exact rest
    | later rest => exact .later (ih rest)

theorem Visits.of_getLast? {vs : List Nat} {v : Nat} (last : vs.getLast? = some v) : Visits vs [v] := by
  induction vs with
  | nil => cases last
  | cons x vs ih =>
    cases vs with
    | nil =>
      cases last
      exact .here (.done _)
    | cons y vs => exact .later (ih (by rwa [List.getLast?_cons_cons] at last))

theorem Visits.subset {vs keys : List Nat} (h : Visits vs keys) : keys ⊆ vs := by
  induction h with
  | done => exact List.nil_subset _
  | here _ ih => exact List.cons_subset.2 ⟨List.mem_cons_self, ih⟩
  | later _ ih => exact List.subset_cons_of_subset _ ih

namespace Digraph

variable {g : Digraph} {admissible : Nat → Bool} {rank? : Nat → Option Nat} {bound fuel key u v x y : Nat}
  {keys : List Nat} {w w' w'' : Walk}

section Confinement

/-- The edges added by a walk from a vertex start there or at vertices that it entered, and end at entered
vertices. -/
def Walk.Confined (u : Nat) (w w' : Walk) : Prop :=
  ∀ x y, w'.kept.Edge x y → w.kept.Edge x y ∨ (x = u ∨ x ∉ w.visited) ∧ y ∈ w'.visited

theorem Walk.Confined.refl (u : Nat) (w : Walk) : Confined u w w := fun _ _ edge => .inl edge

theorem Walk.Confined.trans (h : Confined u w w') (h' : Confined u w' w'') (visited : w.visited ⊆ w'.visited)
    (visited' : w'.visited ⊆ w''.visited) : Confined u w w'' := by
  intro x y edge
  rcases h' x y edge with old | ⟨source, target⟩
  · exact (h x y old).imp_right fun new => ⟨new.1, visited' new.2⟩
  · exact .inr ⟨source.imp_right fun new seen => new (visited seen), target⟩

theorem enter_confined (sub : ∀ v w, Walk.Confined v w (g.walk admissible fuel v w)) (u v : Nat) (w : Walk) :
    Walk.Confined u w (g.enter admissible fuel v w) := by
  unfold enter
  split
  next => exact .refl u w
  next fresh =>
    rw [List.contains_iff_mem] at fresh
    intro x y edge
    refine (sub v (w.visit v) x y edge).imp_right fun new => ⟨.inr ?_, new.2⟩
    rcases new.1 with rfl | unseen
    · exact fresh
    · exact fun seen => unseen (List.mem_cons_of_mem _ seen)

theorem cross_confined (sub : ∀ v w, Walk.Confined v w (g.walk admissible fuel v w)) (u v : Nat) (w : Walk) :
    Walk.Confined u w (g.cross admissible fuel u w v) := by
  have entered := enter_confined sub u v w
  have met := mem_enter_visited g admissible fuel v w
  rw [cross_eq]
  split
  next =>
    intro x y edge
    rw [judged_visited]
    unfold judged at edge
    split at edge
    · rcases Walk.keep_edge.1 edge with old | ⟨rfl, rfl⟩
      · exact entered x y old
      · exact .inr ⟨.inl rfl, met⟩
    · exact entered x y edge
  next => exact .refl u w

theorem crossAll_confined (sub : ∀ v w, Walk.Confined v w (g.walk admissible fuel v w)) {vs : List Nat}
    (edges : ∀ v ∈ vs, g.Edge u v) (w : Walk) :
    Walk.Confined u w (vs.foldl (g.cross admissible fuel u) w) := by
  induction vs generalizing w with
  | nil => exact .refl u w
  | cons v vs ih =>
    obtain ⟨edge, edges⟩ := List.forall_mem_cons.1 edges
    have first := cross_extends (walk_extends g admissible fuel) edge w
    have rest := crossAll_extends (walk_extends g admissible fuel) edges (g.cross admissible fuel u w v)
    exact (cross_confined sub u v w).trans (ih edges _) first.visited rest.visited

theorem walk_confined (g : Digraph) (admissible : Nat → Bool) (fuel u : Nat) (w : Walk) :
    Walk.Confined u w (g.walk admissible fuel u w) := by
  induction fuel generalizing u w with
  | zero => exact .refl u w
  | succ fuel ih =>
    rw [walk_succ]
    exact crossAll_confined ih (fun _ h => h) w

/-- A leg adds no edge out of what was entered before, but for the vertex where it starts. -/
theorem leg_frozen (seen : x ∈ w.visited) (other : x ≠ u)
    (edge : (g.leg rank? bound u key w).kept.Edge x y) : w.kept.Edge x y := by
  rcases walk_confined g _ _ u (w.heading u key) x y edge with old | ⟨same | unseen, -⟩
  · rwa [Walk.heading_kept] at old
  · exact absurd same other
  · exact absurd (Walk.mem_heading_visited.2 (.inr seen)) unseen

end Confinement

section Ordered

/-- All that the legs up to a key have entered ranks at most as the key, and the kept edges end there. -/
structure Walk.UpTo (rank? : Nat → Option Nat) (u : Nat) (w : Walk) : Prop where
  below : ∀ y ∈ w.visited, AtMost rank? y u
  inside : ∀ x y, w.kept.Edge x y → y ∈ w.visited

theorem leg_upTo (hb : rank? key = some bound) (h : w.UpTo rank? u) (up : AtMost rank? u key) :
    (g.leg rank? bound u key w).UpTo rank? key := by
  have extended := leg_extends g rank? bound u key w
  refine ⟨fun y seen => ?_, fun x y edge => ?_⟩
  · rcases extended.entered y seen with old | ⟨admitted, -⟩
    · rcases Walk.mem_heading_visited.1 old with rfl | old
      · exact up
      · exact (h.below y old).trans up
    · exact (any_le_iff hb).1 admitted
  · rcases walk_confined g _ _ u (w.heading u key) x y edge with old | ⟨-, target⟩
    · rw [Walk.heading_kept] at old
      exact extended.visited (Walk.mem_heading_visited.2 (.inr (h.inside x y old)))
    · exact target

variable (antisymm : ∀ x y, AtMost rank? x y → AtMost rank? y x → x = y)
include antisymm

/-- Later legs start at keys that rank higher than all that was entered before, which is left as it was. -/
theorem walkKeys_frozen (h : w.UpTo rank? u) (ordered : (u :: keys).IsChain (AtMost rank?))
    (walked : g.walkKeys rank? u keys w = .ok w') (seen : x ∈ w.visited) (other : x ≠ u)
    (edge : w'.kept.Edge x y) : w.kept.Edge x y := by
  induction keys generalizing u w with
  | nil =>
    cases walked
    exact edge
  | cons key keys ih =>
    obtain ⟨up, ordered⟩ := List.isChain_cons_cons.1 ordered
    obtain ⟨-, bound, -, hb, -⟩ := id up
    rw [walkKeys_cons hb] at walked
    have visited : x ∈ (g.leg rank? bound u key w).visited :=
      (leg_extends g rank? bound u key w).visited (Walk.mem_heading_visited.2 (.inr seen))
    have notKey : x ≠ key := by
      rintro rfl
      exact other (antisymm x u (h.below x seen) up)
    exact leg_frozen seen other (ih (leg_upTo hb h up) ordered walked visited notKey)

/-- From what the legs up to a key have entered, every walk to the last key visits that key and all later
ones in order. -/
theorem walkKeys_visits (h : w.UpTo rank? u) (ordered : (u :: keys).IsChain (AtMost rank?))
    (walked : g.walkKeys rank? u keys w = .ok w') {a : Nat} {walk : List Nat} (start : a = u ∨ a ∈ w.visited)
    (isWalk : w'.kept.IsWalk (a :: walk)) (last : (a :: walk).getLast? = (u :: keys).getLast?) :
    Visits (a :: walk) (u :: keys) := by
  induction keys generalizing u w a walk with
  | nil => exact .of_getLast? last
  | cons key keys ih =>
    have trans : IsTrans Nat (AtMost rank?) := ⟨fun _ _ _ => AtMost.trans⟩
    have lower : ∀ k ∈ key :: keys, AtMost rank? u k := (List.pairwise_cons.1 ordered.pairwise).1
    obtain ⟨up, ordered'⟩ := List.isChain_cons_cons.1 ordered
    obtain ⟨-, bound, -, hb, -⟩ := id up
    have atKey : ∀ walk, w'.kept.IsWalk (u :: walk) → (u :: walk).getLast? = (u :: key :: keys).getLast? →
        Visits (u :: walk) (u :: key :: keys) := by
      intro walk isWalk last
      have entered : u ∈ (g.leg rank? bound u key w).visited :=
        (leg_extends g rank? bound u key w).visited (Walk.mem_heading_visited.2 (.inl rfl))
      exact .here (ih (leg_upTo hb h up) ordered' (walkKeys_cons hb ▸ walked) (.inr entered) isWalk last)
    -- Until the walk is at the key of the legs so far, it stays within what they entered.
    induction walk generalizing a with
    | nil =>
      have same : a = u := by
        refine start.elim id fun seen => antisymm a u (h.below a seen) (lower a ?_)
        exact List.mem_of_getLast? last.symm
      subst same
      exact atKey [] isWalk last
    | cons b walk more =>
      by_cases same : a = u
      · subst same
        exact atKey (b :: walk) isWalk last
      · obtain ⟨edge, isWalk⟩ := List.isChain_cons_cons.1 isWalk
        have old := walkKeys_frozen antisymm h ordered walked (start.resolve_left same) same edge
        exact .later (more (.inr (h.inside a b old)) isWalk last)

end Ordered

theorem AtMost.antisymm {order : Nat} {vs : List Nat} (h : AtMost (rankIn? order vs) x y)
    (h' : AtMost (rankIn? order vs) y x) : x = y := by
  obtain ⟨i, j, hi, hj, le⟩ := h
  obtain ⟨j', i', hj', hi', le'⟩ := h'
  cases hi.symm.trans hi'
  cases hj.symm.trans hj'
  exact rankIn?_injective hi (le_antisymm le le' ▸ hj)

theorem walkKeys_ranked (walked : g.walkKeys rank? u (key :: keys) w = .ok w') : (rank? key).isSome = true := by
  unfold walkKeys at walked
  split at walked
  next => cases walked
  next ranked =>
    rw [ranked]
    rfl

/-- Where ranks do not fall from key to key, a walk of the pruned graph from the entry to the last key
visits all keys in order. -/
theorem prune_visits {p : Digraph} {entry : Nat} {rest walk : List Nat} (vertices : g.vertices = entry :: rest)
    (pruned : g.prune keys = .ok p) (ordered : keys.IsChain (AtMost (g.rank? entry)))
    (isWalk : p.IsWalk (entry :: walk)) (last : (entry :: walk).getLast? = keys.getLast?) :
    Visits (entry :: walk) keys := by
  obtain ⟨entry', rest', w, vertices', walked, rfl⟩ := prune_ok pruned
  cases vertices.symm.trans vertices'
  cases keys with
  | nil => exact .done _
  | cons key keys =>
    obtain ⟨j, hj⟩ := Option.isSome_iff_exists.1 (walkKeys_ranked walked)
    obtain ⟨i, hi, le⟩ := rank?_entry_le hj
    have start : Walk.UpTo (g.rank? entry) entry ⟨[], [], g.edgeless⟩ :=
      ⟨(fun _ h => nomatch h), fun x y edge => absurd edge edgeless_edge⟩
    exact (walkKeys_visits (fun _ _ => AtMost.antisymm) start (.cons_cons ⟨i, j, hi, hj, le⟩ ordered) walked
      (.inl rfl) isWalk last).tail

end Digraph

section Entries

/-- The entry of a body is the first vertex of its graph. -/
theorem Body.graph_vertices (b : Body) : ∃ rest, b.graph.vertices = Body.entry :: rest := by
  have grows : ∀ (g : Digraph) (v : InstrId), (∃ rest, g.vertices = entry :: rest) →
      ∃ rest, (g.addVertex v).vertices = entry :: rest := by
    rintro g v ⟨rest, first⟩
    rw [Digraph.vertices_addVertex, first]
    split
    · exact ⟨rest, rfl⟩
    · exact ⟨rest ++ [v], rfl⟩
  have vertices : ∀ (is : List InstrId) (g : Digraph), (∃ rest, g.vertices = entry :: rest) →
      ∃ rest, (is.foldl Digraph.addVertex g).vertices = entry :: rest := by
    intro is
    induction is with
    | nil => exact fun _ h => h
    | cons i is ih => exact fun g h => ih _ (grows g i h)
  have edges : ∀ (i : InstrId) (js : List InstrId) (g : Digraph), (∃ rest, g.vertices = entry :: rest) →
      ∃ rest, (js.foldl (fun g j => g.addEdge i j) g).vertices = entry :: rest := by
    intro i js
    induction js with
    | nil => exact fun _ h => h
    | cons j js ih =>
      refine fun g h => ih _ ?_
      rw [Digraph.vertices_addEdge]
      exact grows _ j (grows g i h)
  have first : ∃ is, b.positions = entry :: is := by
    obtain ⟨n, length⟩ := Nat.exists_eq_succ_of_ne_zero (mt List.eq_nil_of_length_eq_zero b.nonempty)
    exact ⟨(List.range n).map Nat.succ, by rw [positions, Body.length, length, List.range_succ_eq_map]; rfl⟩
  unfold graph
  obtain ⟨is, first⟩ := first
  rw [first, List.foldl_cons, List.foldl_cons]
  suffices all : ∀ (is : List InstrId) (g : Digraph), (∃ rest, g.vertices = entry :: rest) →
      ∃ rest, (is.foldl (fun g i => (b.successorsOf i).foldl (fun g j => g.addEdge i j) g) g).vertices =
        entry :: rest from all _ _ (edges _ _ _ (vertices _ _ ⟨[], rfl⟩))
  intro is
  induction is with
  | nil => exact fun _ h => h
  | cons i is ih => exact fun g h => ih _ (edges i _ g h)

variable {q : Query} {m : Method} {b : Body} {p : Digraph} {walk : List Nat}

theorem TaintPath.keys_eq (path : TaintPath) (inMethod : ∀ e ∈ path.entries, e.method = m) :
    path.keys m = path.entries.map (·.instr) := by
  unfold keys
  rw [List.filter_eq_self.2 fun e mem => decide_eq_true (inMethod e mem)]

theorem Query.graph_prune (body : q.body m = .ok b) (pruned : q.graph m = .ok p) (keys : q.path.keys m ≠ []) :
    b.graph.prune (q.path.keys m) = .ok p := by
  unfold Query.graph at pruned
  obtain ⟨b', body', h⟩ := except_bind_ok.1 pruned
  cases body.symm.trans body'
  split at h
  next none => exact absurd none keys
  next =>
    dsimp only at h
    split at h
    next found =>
      cases h
      exact found
    next => cases h

/-- A walk of a method's graph that arrives at the sink has visited all entries of the path in order, if
their ranks do not fall from entry to entry. -/
theorem Query.visits_of_arrival (body : q.body m = .ok b) (inMethod : ∀ e ∈ q.path.entries, e.method = m)
    (pruned : q.graph m = .ok p)
    (ordered : (q.path.entries.map (·.instr)).IsChain (Digraph.AtMost (b.graph.rank? Body.entry)))
    (isWalk : p.IsWalk (Body.entry :: walk))
    (arrives : (Body.entry :: walk).getLast? = some q.path.sink.instr) :
    Visits (Body.entry :: walk) (q.path.entries.map (·.instr)) := by
  obtain ⟨rest, vertices⟩ := b.graph_vertices
  have keys := q.path.keys_eq inMethod
  have some : q.path.keys m ≠ [] := by
    rw [keys]
    exact mt List.map_eq_nil_iff.1 q.path.nonempty
  have found := Query.graph_prune body pruned some
  rw [keys] at found
  refine Digraph.prune_visits vertices found ordered isWalk (arrives.trans ?_)
  rw [List.getLast?_map, List.getLast?_eq_some_getLast q.path.nonempty]
  rfl

def rounding : Method := ⟨"A", "run", [.int], .void⟩

/-- A loop at 1 that goes round by 3 and is left to 2. -/
def roundingBody : Body where
  method := rounding
  locals := [⟨"p", .int⟩]
  instructions := [
    .identity ⟨"p", .int⟩ (.parameter 0),
    .branch (.binary .gt (.loc ⟨"p", .int⟩) (.const (.int 0)) .boolean) 3,
    .retVoid, .goto 1]
  successors := [[1], [2, 3], [], [1]]
  nonempty := List.cons_ne_nil _ _
  successors_length := rfl
  edges_lt := show ∀ i ∈ [1, 2, 3, 1], i < 4 by decide

def roundingQuery : Query where
  program := .ofBodies [roundingBody] []
  path := ⟨[⟨.read, rounding, 1, none, none⟩, ⟨.sink, rounding, 2, none, none⟩], by decide⟩

/-- A walk that goes round once before it arrives. -/
theorem visits_of_arrival_rounding : ∃ p, roundingQuery.graph rounding = .ok p ∧
    p.IsWalk [0, 1, 3, 1, 2] ∧ Visits [0, 1, 3, 1, 2] [1, 2] := by
  have pruned : roundingQuery.graph rounding = .ok ⟨[(0, [1]), (1, [2, 3]), (2, []), (3, [1])]⟩ := by cbv
  have isWalk : Digraph.IsWalk ⟨[(0, [1]), (1, [2, 3]), (2, []), (3, [1])]⟩ [0, 1, 3, 1, 2] := by decide
  have first : roundingBody.graph.rank? Body.entry 1 = some 1 := by decide +kernel
  have second : roundingBody.graph.rank? Body.entry 2 = some 3 := by decide +kernel
  refine ⟨_, pruned, isWalk, ?_⟩
  refine Query.visits_of_arrival (q := roundingQuery) (b := roundingBody) rfl (by decide) pruned ?_ isWalk rfl
  exact .cons_cons ⟨1, 3, first, second, by decide⟩ (.singleton _)

def fallingBack : Method := ⟨"A", "run", [], .void⟩

/-- The sink at 1 stands before the assignment at 2. -/
def fallingBackBody : Body where
  method := fallingBack
  locals := [⟨"x", .int⟩]
  instructions := [
    .assign (.loc ⟨"x", .int⟩) (.use (.const (.int 0))), .nop,
    .assign (.loc ⟨"x", .int⟩) (.use (.const (.int 1))), .retVoid]
  successors := [[1], [2], [3], []]
  nonempty := List.cons_ne_nil _ _
  successors_length := rfl
  edges_lt := show ∀ i ∈ [1, 2, 3], i < 4 by decide

def fallingBackQuery : Query where
  program := .ofBodies [fallingBackBody] []
  path := ⟨[⟨.assign, fallingBack, 2, none, none⟩, ⟨.sink, fallingBack, 1, none, none⟩], by decide⟩

/-- A sink before an earlier entry is met on the way there: the walk arrives without that entry. -/
theorem arrival_misses_entry : ∃ p, fallingBackQuery.body fallingBack = .ok fallingBackBody ∧
    (∀ e ∈ fallingBackQuery.path.entries, e.method = fallingBack) ∧ fallingBackQuery.graph fallingBack = .ok p ∧
    p.IsWalk [Body.entry, 1] ∧ fallingBackQuery.path.sink.instr = 1 ∧
    ¬ Visits [Body.entry, 1] (fallingBackQuery.path.entries.map (·.instr)) := by
  have pruned : fallingBackQuery.graph fallingBack = .ok ⟨[(0, [1]), (1, [2]), (2, []), (3, [])]⟩ := by cbv
  have isWalk : Digraph.IsWalk ⟨[(0, [1]), (1, [2]), (2, []), (3, [])]⟩ [Body.entry, 1] := by decide
  refine ⟨_, rfl, by decide, pruned, isWalk, rfl, fun visits => ?_⟩
  have missed : 2 ∈ [Body.entry, 1] := visits.subset List.mem_cons_self
  cases List.mem_pair.1 missed with
  | inl same => cases same
  | inr same => cases same

end Entries
end SinkReach
