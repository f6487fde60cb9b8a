import Mathlib.Data.Finset.Card
import Mathlib.Data.List.Chain
import Mathlib.Logic.Relation
import SinkReach.Route.Instances

/-!
Edges, walks and reachability in graphs. A graph in which every edge ends at a vertex has only as many
vertices to meet as its adjacency list is long, which bounds every search in it.
-/
namespace SinkReach.Digraph

variable {g : Digraph} {u v x y : Nat}

/-- The graph has an edge from one vertex to another. -/
def Edge (g : Digraph) (u v : Nat) : Prop := v ∈ g.successors u

instance (g : Digraph) (u v : Nat) : Decidable (g.Edge u v) := inferInstanceAs (Decidable (v ∈ _))

/-- Every edge ends at a vertex. -/
def Closed (g : Digraph) : Prop := ∀ e ∈ g.adjacency, ∀ v ∈ e.2, v ∈ g.vertices

instance (g : Digraph) : Decidable g.Closed := inferInstanceAs (Decidable (∀ e ∈ _, ∀ v ∈ _, _))

/-- A path, perhaps of no edge, leads from one vertex to another. -/
def Reaches (g : Digraph) : Nat → Nat → Prop := Relation.ReflTransGen g.Edge

/-- A path of at least one edge leads from one vertex to another. -/
def Precedes (g : Digraph) : Nat → Nat → Prop := Relation.TransGen g.Edge

/-- No path leads back to where it started. -/
def Acyclic (g : Digraph) : Prop := ∀ v, ¬ g.Precedes v v

/-- Each vertex of the list is followed by one of its successors. -/
def IsWalk (g : Digraph) (walk : List Nat) : Prop := walk.IsChain g.Edge

instance (g : Digraph) (walk : List Nat) : Decidable (g.IsWalk walk) :=
  inferInstanceAs (Decidable (walk.IsChain g.Edge))

/-- In an acyclic graph no two vertices reach each other. -/
theorem Acyclic.antisymm (h : g.Acyclic) (there : g.Reaches u v) (back : g.Reaches v u) : u = v := by
  rcases Relation.reflTransGen_iff_eq_or_transGen.1 there with same | path
  · exact same.symm
  · exact absurd (path.trans_left back) (h u)

theorem mem_vertices_of_edge (closed : g.Closed) (edge : g.Edge u v) : v ∈ g.vertices := by
  unfold Edge successors at edge
  split at edge
  next found => exact closed _ (List.mem_of_find?_eq_some found) v edge
  next => cases edge

theorem mem_vertices_of_reaches (closed : g.Closed) (known : u ∈ g.vertices) (path : g.Reaches u v) :
    v ∈ g.vertices := by
  induction path with
  | refl => exact known
  | tail _ edge _ => exact mem_vertices_of_edge closed edge

section Building

theorem contains_iff : g.contains v = true ↔ v ∈ g.vertices := List.contains_iff_mem

theorem edge_iff : g.Edge u v ↔ ∃ e, g.adjacency.find? (fun e => e.1 == u) = some e ∧ v ∈ e.2 := by
  unfold Edge successors
  split
  next found => simp [found]
  next missing => simp [missing]

theorem edgeless_edge : ¬ g.edgeless.Edge u v := by
  rw [edge_iff]
  rintro ⟨e, found, mem⟩
  obtain ⟨e', -, rfl⟩ := List.mem_map.1 (List.mem_of_find?_eq_some found)
  cases mem

theorem vertices_addVertex : (g.addVertex v).vertices = if g.contains v then g.vertices else g.vertices ++ [v] := by
  unfold addVertex
  split
  · rfl
  · simp [vertices]

theorem mem_vertices_addVertex : x ∈ (g.addVertex v).vertices ↔ x ∈ g.vertices ∨ x = v := by
  rw [vertices_addVertex]
  split
  next known => exact ⟨.inl, fun h => h.elim id fun same => same ▸ contains_iff.1 known⟩
  next => simp

theorem addVertex_edge : (g.addVertex x).Edge u v ↔ g.Edge u v := by
  unfold addVertex
  split
  · rfl
  · rw [edge_iff, edge_iff, List.find?_append]
    cases g.adjacency.find? fun e => e.1 == u with
    | some e => simp
    | none =>
      simp only [List.find?_cons, List.find?_nil, Option.none_or]
      split <;> simp

/-- Adding an edge adds that edge and no other. -/
theorem addEdge_edge : (g.addEdge x y).Edge u v ↔ g.Edge u v ∨ u = x ∧ v = y := by
  have known : x ∈ ((g.addVertex x).addVertex y).vertices :=
    mem_vertices_addVertex.2 (.inl (mem_vertices_addVertex.2 (.inr rfl)))
  have before : ((g.addVertex x).addVertex y).Edge u v ↔ g.Edge u v := addVertex_edge.trans addVertex_edge
  rw [← before]
  unfold addEdge
  generalize (g.addVertex x).addVertex y = h at known
  simp only [edge_iff, List.find?_map]
  have keys : (fun e : Nat × List Nat => e.1 == u) ∘
      (fun e => if (e.1 == x && !e.2.contains y) = true then (e.1, e.2 ++ [y]) else e) =
        fun e => e.1 == u := by
    funext e
    simp only [Function.comp_apply]
    split <;> rfl
  rw [keys]
  cases found : h.adjacency.find? fun e => e.1 == u with
  | none =>
    have other : u ≠ x := by
      rintro rfl
      obtain ⟨e, he, rfl⟩ := List.mem_map.1 known
      simpa using List.find?_eq_none.1 found e he
    simp [other]
  | some e =>
    have key : e.1 = u := by simpa using List.find?_some found
    simp only [Option.map_some, Option.some.injEq, exists_eq_left', key]
    by_cases same : u = x
    · subst same
      by_cases old : y ∈ e.2
      · simp only [beq_self_eq_true, Bool.true_and, List.contains_iff_mem.2 old]
        simp only [Bool.not_true, Bool.false_eq_true, if_false, true_and]
        exact ⟨.inl, fun h => h.elim id fun h => h ▸ old⟩
      · simp [old]
    · simp [same]

theorem closed_empty : Closed empty := fun _ h => nomatch h

theorem Closed.addVertex (h : g.Closed) (v : Nat) : (g.addVertex v).Closed := by
  unfold Digraph.addVertex
  split
  · exact h
  · intro e he w hw
    rcases List.mem_append.1 he with he | he
    · simp only [vertices, List.map_append, List.mem_append]
      exact .inl (h e he w hw)
    · cases List.mem_singleton.1 he
      cases hw

theorem vertices_addEdge : (g.addEdge u v).vertices = ((g.addVertex u).addVertex v).vertices := by
  simp only [addEdge, vertices, List.map_map]
  refine List.map_congr_left fun e _ => ?_
  simp only [Function.comp_apply]
  split <;> rfl

theorem Closed.addEdge (h : g.Closed) (u v : Nat) : (g.addEdge u v).Closed := by
  have closed := (h.addVertex u).addVertex v
  have known : v ∈ ((g.addVertex u).addVertex v).vertices := mem_vertices_addVertex.2 (.inr rfl)
  intro e he w hw
  rw [vertices_addEdge]
  obtain ⟨e', he', rfl⟩ := List.mem_map.1 he
  split at hw
  · rcases List.mem_append.1 hw with hw | hw
    · exact closed e' he' w hw
    · cases List.mem_singleton.1 hw
      exact known
  · exact closed e' he' w hw

end Building

/-- Edges that all go to greater vertices form no cycle. -/
theorem acyclic_of_increasing (h : ∀ e ∈ g.adjacency, ∀ v ∈ e.2, e.1 < v) : g.Acyclic := by
  have step : ∀ u v, g.Edge u v → u < v := by
    intro u v edge
    obtain ⟨e, found, mem⟩ := edge_iff.1 edge
    have source : e.1 = u := by simpa using List.find?_some found
    exact source ▸ h e (List.mem_of_find?_eq_some found) v mem
  have path : ∀ u v, g.Precedes u v → u < v := by
    intro u v path
    induction path with
    | single edge => exact step _ _ edge
    | tail _ edge ih => exact ih.trans (step _ _ edge)
  exact fun v cycle => lt_irrefl v (path v v cycle)

section Measure

/-- Number of vertices that are not among those met. -/
def unmet (g : Digraph) (met : List Nat) : Nat := (g.vertices.toFinset \ met.toFinset).card

theorem unmet_le_order (g : Digraph) (met : List Nat) : g.unmet met ≤ g.order := by
  calc g.unmet met ≤ g.vertices.toFinset.card := Finset.card_le_card Finset.sdiff_subset
    _ ≤ g.vertices.length := List.toFinset_card_le _
    _ = g.order := List.length_map _

theorem unmet_antitone {met met' : List Nat} (sub : met ⊆ met') : g.unmet met' ≤ g.unmet met := by
  refine Finset.card_le_card (Finset.sdiff_subset_sdiff (Finset.Subset.refl _) ?_)
  intro x hx
  exact List.mem_toFinset.2 (sub (List.mem_toFinset.1 hx))

/-- Meeting a new vertex leaves fewer to meet. -/
theorem unmet_cons_lt {met : List Nat} (known : v ∈ g.vertices) (fresh : v ∉ met) :
    g.unmet (v :: met) < g.unmet met := by
  refine Finset.card_lt_card ⟨?_, fun sub => ?_⟩
  · refine Finset.sdiff_subset_sdiff (Finset.Subset.refl _) fun x hx => ?_
    exact List.mem_toFinset.2 (List.mem_cons_of_mem _ (List.mem_toFinset.1 hx))
  · have member : v ∈ g.vertices.toFinset \ met.toFinset := by simp [known, fresh]
    have gone := sub member
    simp at gone

end Measure
end SinkReach.Digraph

namespace SinkReach.Body

/-- The graph of a body is made of its positions and its edges. -/
theorem graph_keeps {I : Digraph → Prop} (b : Body) (bare : I .empty)
    (vertex : ∀ g, ∀ i < b.length, I g → I (g.addVertex i))
    (edge : ∀ g i j, j ∈ b.successorsOf i → I g → I (g.addEdge i j)) : I b.graph := by
  have vertices : ∀ (is : List InstrId) (g : Digraph), (∀ i ∈ is, i < b.length) → I g →
      I (is.foldl Digraph.addVertex g) := by
    intro is
    induction is with
    | nil => exact fun _ _ h => h
    | cons i is ih =>
      intro g known h
      obtain ⟨less, known⟩ := List.forall_mem_cons.1 known
      exact ih _ known (vertex g i less h)
  have edges : ∀ (i : InstrId) (js : List InstrId) (g : Digraph), js ⊆ b.successorsOf i → I g →
      I (js.foldl (fun g j => g.addEdge i j) g) := by
    intro i js
    induction js with
    | nil => exact fun _ _ h => h
    | cons j js ih =>
      intro g sub h
      exact ih _ (fun j' mem => sub (List.mem_cons_of_mem _ mem)) (edge g i j (sub List.mem_cons_self) h)
  have all : ∀ (is : List InstrId) (g : Digraph), I g →
      I (is.foldl (fun g i => (b.successorsOf i).foldl (fun g j => g.addEdge i j) g) g) := by
    intro is
    induction is with
    | nil => exact fun _ h => h
    | cons i is ih => exact fun g h => ih _ (edges i _ g (List.Subset.refl _) h)
  exact all _ _ (vertices _ _ (fun i mem => List.mem_range.1 mem) bare)

/-- Control-flow graphs have edges between their vertices only. -/
theorem graph_closed (b : Body) : b.graph.Closed :=
  b.graph_keeps Digraph.closed_empty (fun _ i _ h => h.addVertex i) fun _ i j _ h => h.addEdge i j

end SinkReach.Body
