import SinkReach.Proofs.Route.Pruning
import SinkReach.Proofs.Stateful

/-!
The graph of a call instance, pruned or not, has no edges but those of the body, each of them once.
-/
namespace SinkReach

namespace Digraph

variable {g g' : Digraph} {next : Nat → List Nat} {u v : Nat}

/-- The edges of the graph are among those given, and none stands twice. -/
structure Within (next : Nat → List Nat) (g : Digraph) : Prop where
  nodup : ∀ e ∈ g.adjacency, e.2.Nodup
  edges : ∀ u v, g.Edge u v → v ∈ next u

theorem Within.nodup_successors (h : g.Within next) (u : Nat) : (g.successors u).Nodup := by
  unfold successors
  split
  next found => exact h.nodup _ (List.mem_of_find?_eq_some found)
  next => exact List.nodup_nil

theorem within_empty : empty.Within next := ⟨fun _ h => (nomatch h), fun _ _ h => nomatch h⟩

theorem within_edgeless (g : Digraph) : g.edgeless.Within next := by
  refine ⟨fun e mem => ?_, fun u v edge => absurd edge edgeless_edge⟩
  obtain ⟨e', -, rfl⟩ := List.mem_map.1 mem
  exact List.nodup_nil

theorem Within.addVertex (h : g.Within next) (v : Nat) : (g.addVertex v).Within next := by
  refine ⟨?_, fun x y edge => h.edges x y (addVertex_edge.1 edge)⟩
  unfold Digraph.addVertex
  split
  · exact h.nodup
  · intro e mem
    rcases List.mem_append.1 mem with mem | mem
    · exact h.nodup e mem
    · cases List.mem_singleton.1 mem
      exact List.nodup_nil

theorem Within.addEdge (h : g.Within next) (edge : v ∈ next u) : (g.addEdge u v).Within next := by
  refine ⟨fun e mem => ?_, fun x y added => ?_⟩
  · obtain ⟨e', old, rfl⟩ := List.mem_map.1 mem
    have nodup := ((h.addVertex u).addVertex v).nodup e' old
    split
    next new =>
      simp only [Bool.and_eq_true, Bool.not_eq_true', List.contains_eq_mem, decide_eq_false_iff_not] at new
      exact List.nodup_append.2 ⟨nodup, List.nodup_singleton v, fun x hx y hy => by
        cases List.mem_singleton.1 hy
        rintro rfl
        exact new.2 hx⟩
    next => exact nodup
  · rcases addEdge_edge.1 added with old | ⟨rfl, rfl⟩
    · exact h.edges x y old
    · exact edge

/-- A walk adds nothing to what is kept but edges of the graph it walks in. -/
theorem walk_keeps {I : Digraph → Prop} (adds : ∀ p u v, g.Edge u v → I p → I (p.addEdge u v))
    {admissible : Nat → Bool} {fuel : Nat} {w : Walk} (h : I w.kept) : I (g.walk admissible fuel u w).kept := by
  induction fuel generalizing u w with
  | zero => exact h
  | succ fuel ih =>
    rw [walk_succ]
    have all : ∀ v ∈ g.successors u, g.Edge u v := fun v mem => mem
    generalize g.successors u = vs at all
    induction vs generalizing w with
    | nil => exact h
    | cons v vs ihs =>
      refine ihs ?_ fun v' mem => all v' (List.mem_cons_of_mem _ mem)
      have judge : ∀ w : Walk, I w.kept → I (judged u v w).kept := by
        intro w hw
        unfold judged
        split
        · exact (Walk.lead_kept _ u).symm ▸ adds _ u v (all v List.mem_cons_self) hw
        · exact hw
      rw [cross_eq, enter]
      split
      · split
        · exact judge w h
        · exact judge _ (ih h)
      · exact h

theorem walkKeys_keeps {I : Digraph → Prop} (adds : ∀ p u v, g.Edge u v → I p → I (p.addEdge u v))
    {rank? : Nat → Option Nat} {keys : List Nat} {w w' : Walk} (h : I w.kept)
    (walked : g.walkKeys rank? u keys w = .ok w') : I w'.kept := by
  induction keys generalizing u w with
  | nil =>
    cases walked
    exact h
  | cons key keys ih =>
    unfold walkKeys at walked
    split at walked
    · cases walked
    · refine ih (walk_keeps adds ?_) walked
      exact (Walk.lead_kept w key).symm ▸ h

/-- The pruned graph has the vertices of the graph, and some of its edges. -/
theorem prune_keeps {I : Digraph → Prop} (adds : ∀ p u v, g.Edge u v → I p → I (p.addEdge u v))
    (bare : I g.edgeless) {keys : List Nat} (h : g.prune keys = .ok g') : I g' := by
  obtain ⟨entry, rest, w, -, walked, rfl⟩ := prune_ok h
  exact walkKeys_keeps adds bare walked

/-- All vertices are below a bound. -/
def Below (n : Nat) (g : Digraph) : Prop := ∀ v ∈ g.vertices, v < n

theorem Below.addVertex {n : Nat} (h : g.Below n) (less : v < n) : (g.addVertex v).Below n :=
  fun x mem => (mem_vertices_addVertex.1 mem).elim (h x) fun same => same ▸ less

theorem Below.addEdge {n : Nat} (h : g.Below n) (source : u < n) (target : v < n) : (g.addEdge u v).Below n := by
  intro x mem
  rw [vertices_addEdge] at mem
  exact (h.addVertex source).addVertex target x mem

theorem Below.edgeless {n : Nat} (h : g.Below n) : g.edgeless.Below n := by
  intro x mem
  obtain ⟨e, listed, rfl⟩ := List.mem_map.1 mem
  obtain ⟨e', old, rfl⟩ := List.mem_map.1 listed
  exact h _ (List.mem_map.2 ⟨e', old, rfl⟩)

section Folding

variable {i : Nat}

theorem empty_edge : ¬ empty.Edge u v := fun edge => nomatch edge

theorem foldl_addVertex_edge {vs : List Nat} : (vs.foldl addVertex g).Edge u v ↔ g.Edge u v := by
  induction vs generalizing g with
  | nil => rfl
  | cons x vs ih => exact ih.trans addVertex_edge

theorem foldl_addEdge_edge {js : List Nat} :
    (js.foldl (fun g j => g.addEdge i j) g).Edge u v ↔ g.Edge u v ∨ u = i ∧ v ∈ js := by
  induction js generalizing g with
  | nil => simp
  | cons j js ih =>
    rw [List.foldl_cons, ih, addEdge_edge, List.mem_cons]
    tauto

/-- Edges that are added for each of several vertices. -/
theorem foldl_addEdges_edge {is : List Nat} :
    (is.foldl (fun g i => (next i).foldl (fun g j => g.addEdge i j) g) g).Edge u v ↔
      g.Edge u v ∨ u ∈ is ∧ v ∈ next u := by
  induction is generalizing g with
  | nil => simp
  | cons i is ih =>
    rw [List.foldl_cons, ih, foldl_addEdge_edge, List.mem_cons]
    constructor
    · rintro ((old | ⟨rfl, new⟩) | ⟨listed, new⟩)
      · exact .inl old
      · exact .inr ⟨.inl rfl, new⟩
      · exact .inr ⟨.inr listed, new⟩
    · rintro (old | ⟨rfl | listed, new⟩)
      · exact .inl (.inl old)
      · exact .inl (.inr ⟨rfl, new⟩)
      · exact .inr ⟨listed, new⟩

end Folding

end Digraph

namespace Body

theorem graph_within (b : Body) : b.graph.Within b.successorsOf :=
  b.graph_keeps Digraph.within_empty (fun _ i _ h => h.addVertex i) fun _ _ _ edge h => h.addEdge edge

theorem length_pos (b : Body) : 0 < b.length := List.length_pos_iff.2 b.nonempty

theorem lt_of_mem_successorsOf {b : Body} {i j : InstrId} (h : j ∈ b.successorsOf i) : j < b.length := by
  unfold successorsOf at h
  cases found : b.successors[i]? with
  | none => simp [found] at h
  | some next =>
    rw [found, Option.getD_some] at h
    exact b.edges_lt j (List.mem_flatten.2 ⟨next, List.mem_of_getElem? found, h⟩)

/-- Edges start at instructions. -/
theorem lt_of_successorsOf {b : Body} {i j : InstrId} (h : j ∈ b.successorsOf i) : i < b.length := by
  by_contra beyond
  have missing : b.successors[i]? = none :=
    List.getElem?_eq_none (by rw [b.successors_length]; exact Nat.le_of_not_lt beyond)
  simp [successorsOf, missing] at h

/-- The graph of a body has just the edges of the body. -/
theorem graph_edge {b : Body} {i j : InstrId} : b.graph.Edge i j ↔ j ∈ b.successorsOf i := by
  refine Digraph.foldl_addEdges_edge.trans ?_
  rw [Digraph.foldl_addVertex_edge]
  constructor
  · rintro (edge | ⟨-, edge⟩)
    · exact absurd edge Digraph.empty_edge
    · exact edge
  · exact fun edge => .inr ⟨List.mem_range.2 (lt_of_successorsOf edge), edge⟩

theorem graph_below (b : Body) : b.graph.Below b.length :=
  b.graph_keeps (fun _ mem => nomatch mem) (fun _ _ less h => h.addVertex less) fun _ _ _ edge h =>
    h.addEdge (lt_of_successorsOf edge) (lt_of_mem_successorsOf edge)

end Body

theorem Query.body_of_graph {q : Query} {m : Method} {g : Digraph} (h : q.graph m = .ok g) :
    ∃ b, q.body m = .ok b := by
  obtain ⟨b, body, -⟩ := except_bind_ok.1 h
  exact ⟨b, body⟩

/-- Graphs of instances have only edges of the body. -/
theorem Query.graph_within {q : Query} {m : Method} {b : Body} {g : Digraph} (body : q.body m = .ok b)
    (h : q.graph m = .ok g) : g.Within b.successorsOf := by
  unfold Query.graph at h
  obtain ⟨b', body', h⟩ := except_bind_ok.1 h
  cases body.symm.trans body'
  split at h
  · cases h
    exact b.graph_within
  · dsimp only at h
    split at h
    next pruned =>
      cases h
      exact Digraph.prune_keeps (fun _ u v edge h => h.addEdge (b.graph_within.edges u v edge))
        (Digraph.within_edgeless b.graph) pruned
    next => cases h

/-- Graphs of instances have no vertices but positions of the body. -/
theorem Query.graph_below {q : Query} {m : Method} {b : Body} {g : Digraph} (body : q.body m = .ok b)
    (h : q.graph m = .ok g) : g.Below b.length := by
  unfold Query.graph at h
  obtain ⟨b', body', h⟩ := except_bind_ok.1 h
  cases body.symm.trans body'
  split at h
  · cases h
    exact b.graph_below
  · dsimp only at h
    split at h
    next pruned =>
      cases h
      refine Digraph.prune_keeps (fun _ u v edge below => ?_) b.graph_below.edgeless pruned
      have edge := b.graph_within.edges u v edge
      exact below.addEdge (Body.lt_of_successorsOf edge) (Body.lt_of_mem_successorsOf edge)
    next => cases h

end SinkReach
