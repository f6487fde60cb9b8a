import SinkReach.Proofs.Route.DepthFirst

/-!
Ranks of vertices. They go up from each vertex to those that the search finished before it. A search finishes
a vertex after all of its successors but those that lead back to it, so edges that do not go up close cycles;
in an acyclic graph the latest finished first is a topological order, in which every edge goes up.
-/
namespace SinkReach.Digraph

variable {g : Digraph} {fuel u v x : Nat} {s : Search} {vs rest : List Nat}

section Topological

/-- Every vertex of the list stands before all of its successors. -/
def TopSorted (g : Digraph) : List Nat → Prop
  | [] => True
  | v :: vs => (∀ w, g.Edge v w → w ∈ vs) ∧ TopSorted g vs

theorem TopSorted.mem_of_edge (h : TopSorted g vs) (mem : u ∈ vs) (edge : g.Edge u v) : v ∈ vs := by
  induction vs with
  | nil => cases mem
  | cons x vs ih =>
    rcases List.mem_cons.1 mem with rfl | mem
    · exact List.mem_cons_of_mem _ (h.1 v edge)
    · exact List.mem_cons_of_mem _ (ih h.2 mem)

theorem TopSorted.mem_of_suffix (h : TopSorted g vs) (suffix : u :: rest <:+ vs) (edge : g.Edge u v) :
    v ∈ rest := by
  obtain ⟨later, rfl⟩ := suffix
  induction later with
  | nil => exact h.1 v edge
  | cons _ _ ih => exact ih h.2

/-- Every successor of a vertex in the list stands behind the vertex, or leads back to it. -/
def Unwound (g : Digraph) : List Nat → Prop
  | [] => True
  | v :: vs => (∀ w, g.Edge v w → w ∈ vs ∨ g.Reaches w v) ∧ Unwound g vs

theorem Unwound.of_suffix (h : Unwound g vs) (suffix : u :: rest <:+ vs) (edge : g.Edge u v) :
    v ∈ rest ∨ g.Reaches v u := by
  obtain ⟨later, rfl⟩ := suffix
  induction later with
  | nil => exact h.1 v edge
  | cons _ _ ih => exact ih h.2

/-- Without cycles nothing leads back. -/
theorem Unwound.topSorted (h : Unwound g vs) (acyclic : g.Acyclic) : TopSorted g vs := by
  induction vs with
  | nil => trivial
  | cons v vs ih =>
    refine ⟨fun w edge => (h.1 w edge).resolve_right fun back => ?_, ih h.2⟩
    exact acyclic v (Relation.TransGen.head' edge back)

theorem exploreAll_unwound (closed : g.Closed)
    (sub : ∀ v s, Search.Orderly s → Unwound g s.finished → v ∈ g.vertices →
      (∀ x, s.Open x → g.Reaches x v) → g.unmet s.seen < fuel → Unwound g (g.explore fuel v s).finished)
    {ws : List Nat} (edges : ∀ w ∈ ws, g.Edge v w) (orderly : s.Orderly) (unwound : Unwound g s.finished)
    (leads : ∀ x, s.Open x → g.Reaches x v) (enough : g.unmet s.seen < fuel) :
    Unwound g (ws.foldl (fun s w => g.explore fuel w s) s).finished := by
  induction ws generalizing s with
  | nil => exact unwound
  | cons w ws ih =>
    obtain ⟨edge, edges⟩ := List.forall_mem_cons.1 edges
    have first := explore_grows g fuel w orderly
    have unwound₁ := sub w s orderly unwound (mem_vertices_of_edge closed edge)
      (fun x isOpen => (leads x isOpen).tail edge) enough
    exact ih edges first.orderly unwound₁ (fun x isOpen => leads x ((first.opened x).1 isOpen))
      (Nat.lt_of_le_of_lt (unmet_antitone first.met) enough)

/-- As long as all that is open leads to the vertex of the search, and the fuel suffices for the vertices that
are left, a vertex is finished after its successors, except those that lead back to it. -/
theorem explore_unwound (closed : g.Closed) (orderly : s.Orderly) (unwound : Unwound g s.finished)
    (known : v ∈ g.vertices) (leads : ∀ x, s.Open x → g.Reaches x v) (enough : g.unmet s.seen < fuel) :
    Unwound g (g.explore fuel v s).finished := by
  induction fuel generalizing v s with
  | zero => cases enough
  | succ fuel ih =>
    by_cases new : v ∈ s.seen
    · rw [explore_of_seen new]
      exact unwound
    rw [explore_succ new]
    have edges : ∀ w ∈ g.successors v, g.Edge v w := fun _ mem => mem
    have left := Nat.lt_of_lt_of_le (unmet_cons_lt known new) (Nat.lt_succ_iff.1 enough)
    have grown := exploreAll_grows (fun w s => explore_grows g fuel w) edges (orderly.meet v)
    obtain ⟨met, -⟩ := exploreAll_meets closed (fun _ _ => explore_meets closed) edges (orderly.meet v) left
    have leads₁ : ∀ x, Search.Open { s with seen := v :: s.seen } x → g.Reaches x v := by
      intro x isOpen
      rcases (orderly.open_meet new).1 isOpen with rfl | isOpen
      · exact .refl
      · exact leads x isOpen
    refine ⟨fun w edge => ?_, exploreAll_unwound closed (fun _ _ => ih) edges (orderly.meet v) unwound leads₁ left⟩
    -- A successor was met by now; one that is not finished is open still, and was so from the start.
    by_cases finished : w ∈ ((g.successors v).foldl (fun s w => g.explore fuel w s)
        { s with seen := v :: s.seen }).finished
    · exact .inl finished
    · exact .inr (leads₁ w ((grown.opened w).1 ⟨met w edge, finished⟩))

theorem finishing_unwound (closed : g.Closed) {entry : Nat} (known : entry ∈ g.vertices) :
    Unwound g (g.finishing entry) :=
  explore_unwound closed Search.orderly_empty trivial known (fun _ none => nomatch none.1)
    (Nat.lt_succ_of_le (unmet_le_order g []))

/-- The finished vertices of an acyclic graph are in topological order. -/
theorem finishing_sorted (closed : g.Closed) (acyclic : g.Acyclic) {entry : Nat}
    (vertices : g.vertices = entry :: rest) : TopSorted g (g.finishing entry) ∧ (g.finishing entry).Nodup := by
  have known : entry ∈ g.vertices := vertices ▸ List.mem_cons_self
  exact ⟨(finishing_unwound closed known).topSorted acyclic, finishing_nodup g entry⟩

end Topological

section Ranks

variable {order i j : Nat}

theorem rankIn?_isSome : (rankIn? order vs v).isSome = true ↔ v ∈ vs := by
  simp [rankIn?]

/-- A vertex has a rank if and only if the entry reaches it. -/
theorem rank?_isSome_iff {entry : Nat} (closed : g.Closed) (known : entry ∈ g.vertices) :
    (g.rank? entry x).isSome = true ↔ g.Reaches entry x :=
  rankIn?_isSome.trans (mem_finishing_iff closed known)

/-- The vertex finished last takes the greatest rank that is left. -/
theorem rankIn?_cons (room : vs.length < order) :
    rankIn? order (u :: vs) v = if u = v then some (order - vs.length - 1) else rankIn? order vs v := by
  by_cases same : u = v
  · rw [if_pos same, rankIn?, List.findIdx?_cons, beq_iff_eq.2 same]
    simp [Nat.sub_sub]
  · rw [if_neg same, rankIn?, rankIn?, List.findIdx?_cons, beq_false_of_ne same]
    cases vs.findIdx? (· == v) with
    | none => rfl
    | some k =>
      simp only [Bool.false_eq_true, if_false, Option.map_some, List.length_cons, Option.some.injEq]
      omega

/-- No two vertices share a rank. -/
theorem rankIn?_injective (hu : rankIn? order vs u = some i) (hv : rankIn? order vs v = some i) : u = v := by
  obtain ⟨k, found, rank⟩ := Option.map_eq_some_iff.1 hu
  obtain ⟨l, found', rank'⟩ := Option.map_eq_some_iff.1 hv
  obtain rfl : k = l := by omega
  obtain ⟨lt, first, -⟩ := List.findIdx?_eq_some_iff_getElem.1 found
  obtain ⟨_, first', -⟩ := List.findIdx?_eq_some_iff_getElem.1 found'
  exact (eq_of_beq first).symm.trans (eq_of_beq first')

/-- The entry ranks lowest. -/
theorem rank?_entry_le {g : Digraph} {entry : Nat} (hv : g.rank? entry v = some j) :
    ∃ i, g.rank? entry entry = some i ∧ i ≤ j := by
  obtain ⟨vs, finished⟩ := finishing_eq_cons g entry
  obtain ⟨k, -, rank⟩ := Option.map_eq_some_iff.1 hv
  refine ⟨g.order - (g.finishing entry).length, ?_, by omega⟩
  simp [rank?, rankIn?, finished, List.findIdx?_cons]

/-- The edge goes up in rank. -/
def Ascends (rank? : Nat → Option Nat) (u v : Nat) : Prop :=
  ∃ i j, rank? u = some i ∧ rank? v = some j ∧ i < j

/-- Ranks go up from a finished vertex to those that were finished before it, and to no others. -/
theorem ascends_iff_of_suffix (nodup : vs.Nodup) (suffix : u :: rest <:+ vs) :
    Ascends (rankIn? order vs) u x ↔ x ∈ rest := by
  obtain ⟨later, rfl⟩ := suffix
  obtain ⟨-, nodup', apart⟩ := List.nodup_append.1 nodup
  have first : later.findIdx? (· == u) = none := by
    rw [List.findIdx?_eq_none_iff]
    intro y mem
    simpa using apart y mem u List.mem_cons_self
  have place : (later ++ u :: rest).findIdx? (· == u) = some later.length := by
    simp [List.findIdx?_append, first, List.findIdx?_cons]
  have rank : rankIn? order (later ++ u :: rest) u =
      some (later.length + (order - (later ++ u :: rest).length)) := by rw [rankIn?, place, Option.map_some]
  constructor
  · rintro ⟨i, j, hi, hj, lt⟩
    obtain ⟨k, found, rfl⟩ := Option.map_eq_some_iff.1 hj
    cases rank.symm.trans hi
    have beyond : later.length < k := by omega
    obtain ⟨less, here, -⟩ := List.findIdx?_eq_some_iff_getElem.1 found
    have same := eq_of_beq here
    rw [List.getElem_append_right (Nat.le_of_lt beyond), List.getElem_cons] at same
    rw [dif_neg (by omega)] at same
    exact same ▸ List.getElem_mem _
  · intro mem
    have other : u ≠ x := fun same => (List.nodup_cons.1 nodup').1 (same ▸ mem)
    have missing : later.findIdx? (· == x) = none := by
      rw [List.findIdx?_eq_none_iff]
      intro y early
      simpa using apart y early x (List.mem_cons_of_mem _ mem)
    obtain ⟨k, found⟩ := Option.isSome_iff_exists.1
      (show (rest.findIdx? (· == x)).isSome = true by simpa using mem)
    refine ⟨_, k + 1 + later.length + (order - (later ++ u :: rest).length), rank, ?_, by omega⟩
    simp [rankIn?, List.findIdx?_append, missing, List.findIdx?_cons, other, found]

theorem TopSorted.ascends (h : TopSorted g vs) (nodup : vs.Nodup) (mem : u ∈ vs) (edge : g.Edge u v) :
    Ascends (rankIn? order vs) u v := by
  obtain ⟨later, rest, rfl⟩ := List.append_of_mem mem
  have suffix := List.suffix_append later (u :: rest)
  exact (ascends_iff_of_suffix nodup suffix).2 (h.mem_of_suffix suffix edge)

theorem length_le_order (nodup : vs.Nodup) (inside : vs ⊆ g.vertices) : vs.length ≤ g.order := by
  calc vs.length ≤ g.vertices.length := (List.subperm_of_subset nodup inside).length_le
    _ = g.order := List.length_map _

theorem finishing_subset (closed : g.Closed) {entry : Nat} (known : entry ∈ g.vertices) :
    g.finishing entry ⊆ g.vertices :=
  fun _ mem => mem_vertices_of_reaches closed known ((mem_finishing_iff closed known).1 mem)

theorem rank?_lt_order (closed : g.Closed) {entry : Nat} (known : entry ∈ g.vertices)
    (hv : g.rank? entry v = some i) : i < g.order := by
  have room := length_le_order (finishing_nodup g entry) (finishing_subset closed known)
  obtain ⟨k, found, rfl⟩ := Option.map_eq_some_iff.1 hv
  obtain ⟨less, -⟩ := List.findIdx?_eq_some_iff_getElem.1 found
  omega

/-- An edge that does not go up in rank closes a cycle. -/
theorem reaches_of_rank?_le (closed : g.Closed) {entry : Nat} (known : entry ∈ g.vertices) (edge : g.Edge u v)
    (hu : g.rank? entry u = some i) (hv : g.rank? entry v = some j) (le : j ≤ i) : g.Reaches v u := by
  have finished : u ∈ g.finishing entry := rankIn?_isSome.1 (Option.isSome_of_mem hu)
  obtain ⟨later, rest, split⟩ := List.append_of_mem finished
  have suffix : u :: rest <:+ g.finishing entry := split ▸ List.suffix_append later (u :: rest)
  rcases (finishing_unwound closed known).of_suffix suffix edge with behind | back
  · obtain ⟨i', j', hu', hv', less⟩ := (ascends_iff_of_suffix (finishing_nodup g entry) suffix).2 behind
    cases hu'.symm.trans hu
    cases hv'.symm.trans hv
    omega
  · exact back

end Ranks
end SinkReach.Digraph
