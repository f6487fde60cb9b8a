import SinkReach.Proofs.Route.DepthFirst
import SinkReach.Proofs.Route.Edges

/-!
What every edge of a pruned graph is good for, whatever the graph. A walk keeps an edge only if its end is
known to lead to a key, and then keeps the path on which the edge was met as well. So along kept edges alone
the source of every kept edge is reached from the key where its leg starts, and its end leads on to a key.
-/
namespace SinkReach.Digraph

variable {g p : Digraph} {admissible : Nat → Bool} {rank? : Nat → Option Nat} {fuel start u v x y : Nat}
  {keys : List Nat} {w w' w'' : Walk}

section Walking

/-- What a walk from a vertex keeps: edges that it reaches along kept ones, and a kept path from everything
that leads on to something that led on before. -/
structure Walk.Connects (u : Nat) (w w' : Walk) : Prop where
  rooted : ∀ x y, w'.kept.Edge x y → w.kept.Edge x y ∨ w'.kept.Reaches u x
  onward : ∀ x ∈ w'.leading, ∃ k ∈ w.leading, w'.kept.Reaches x k

namespace Walk.Connects

theorem refl (u : Nat) (w : Walk) : w.Connects u w where
  rooted := fun _ _ edge => .inl edge
  onward := fun x mem => ⟨x, mem, .refl⟩

theorem trans (h : w.Connects u w') (h' : w'.Connects u w'') (extends' : w'.Extends g admissible u w'') :
    w.Connects u w'' where
  rooted := fun x y edge => by
    rcases h'.rooted x y edge with old | path
    · exact (h.rooted x y old).imp_right extends'.reaches
    · exact .inr path
  onward := fun x mem => by
    obtain ⟨k', known', path'⟩ := h'.onward x mem
    obtain ⟨k, known, path⟩ := h.onward k' known'
    exact ⟨k, known, path'.trans (extends'.reaches path)⟩

/-- An edge that is judged is kept if its end leads on, and then what was kept from there is reached
through it. -/
theorem judge (sound : w'.Sound) (sub : (w.visit v).Connects v w') : w.Connects u (judged u v w') := by
  unfold judged
  split
  next lead =>
    rw [List.contains_iff_mem] at lead
    have wider : ∀ x y, w'.kept.Reaches x y → (w'.keep u v).kept.Reaches x y := fun x y path =>
      Relation.ReflTransGen.mono (fun a b old => keep_edge.2 (.inl old)) x y path
    have step : (w'.keep u v).kept.Edge u v := keep_edge.2 (.inr ⟨rfl, rfl⟩)
    refine ⟨fun x y edge => ?_, fun x mem => ?_⟩
    · rcases keep_edge.1 edge with old | ⟨rfl, rfl⟩
      · exact (sub.rooted x y old).imp_right fun path => .head step (wider v x path)
      · exact .inr .refl
    · rcases mem_keep_leading.1 mem with rfl | mem
      · obtain ⟨k, known, path⟩ := sub.onward v lead
        exact ⟨k, known, .head step (wider v k path)⟩
      · obtain ⟨k, known, path⟩ := sub.onward x mem
        exact ⟨k, known, wider x k path⟩
  next astray =>
    rw [List.contains_iff_mem] at astray
    refine ⟨fun x y edge => ?_, sub.onward⟩
    -- A path from the end to a source would make the end lead on.
    rcases sub.rooted x y edge with old | path
    · exact .inl old
    · exact absurd (Extends.mem_leading_of_reaches sound path (sound x y edge)) astray

/-- An edge to a vertex that was entered before is judged at once. -/
theorem judge_met (u v : Nat) (w : Walk) : w.Connects u (judged u v w) := by
  unfold judged
  split
  next lead =>
    rw [List.contains_iff_mem] at lead
    refine ⟨fun x y edge => ?_, fun x mem => ?_⟩
    · rcases keep_edge.1 edge with old | ⟨rfl, rfl⟩
      · exact .inl old
      · exact .inr .refl
    · rcases mem_keep_leading.1 mem with rfl | mem
      · exact ⟨v, lead, .single (keep_edge.2 (.inr ⟨rfl, rfl⟩))⟩
      · exact ⟨x, mem, .refl⟩
  next => exact .refl u w

end Walk.Connects

theorem cross_connects (sub : ∀ v w, Walk.Sound w → w.Connects v (g.walk admissible fuel v w)) (u v : Nat)
    (sound : w.Sound) : w.Connects u (g.cross admissible fuel u w v) := by
  rw [cross_eq, enter]
  split
  next =>
    split
    next => exact .judge_met u v w
    next =>
      have entered : (w.visit v).Sound := sound
      exact .judge ((walk_extends ..).sound entered) (sub v _ entered)
  next => exact .refl u w

theorem crossAll_connects (sub : ∀ v w, Walk.Sound w → w.Connects v (g.walk admissible fuel v w))
    {vs : List Nat} (edges : ∀ v ∈ vs, g.Edge u v) (sound : w.Sound) :
    w.Connects u (vs.foldl (g.cross admissible fuel u) w) := by
  induction vs generalizing w with
  | nil => exact .refl u w
  | cons v vs ih =>
    obtain ⟨edge, edges⟩ := List.forall_mem_cons.1 edges
    have first := cross_extends (walk_extends g admissible fuel) edge w
    have rest := crossAll_extends (walk_extends g admissible fuel) edges (g.cross admissible fuel u w v)
    exact (cross_connects sub u v sound).trans (ih edges (first.sound sound)) rest

theorem walk_connects (g : Digraph) (admissible : Nat → Bool) (fuel u : Nat) (sound : w.Sound) :
    w.Connects u (g.walk admissible fuel u w) := by
  induction fuel generalizing u w with
  | zero => exact .refl u w
  | succ fuel ih =>
    rw [walk_succ]
    exact crossAll_connects (fun v w => ih v) (fun _ mem => mem) sound

end Walking

section Legs

/-- A key that is not after the one in the given place is reached. -/
def ReachesKey (p : Digraph) (keys : List Nat) (i x : Nat) : Prop :=
  ∃ j b, j ≤ i ∧ keys[j]? = some b ∧ p.Reaches x b

/-- The edge lies between a vertex, the start or a key, and the key after it or an earlier one: the one
reaches its source and its end reaches the other. -/
def LeadsOn (p : Digraph) (start : Nat) (keys : List Nat) (u v : Nat) : Prop :=
  ∃ i a b, (start :: keys)[i]? = some a ∧ keys[i]? = some b ∧ p.Reaches a u ∧ p.ReachesKey keys i v

theorem ReachesKey.mono {p' : Digraph} {i i' : Nat} (h : p.ReachesKey keys i x)
    (wider : ∀ x y, p.Reaches x y → p'.Reaches x y) (le : i ≤ i') : p'.ReachesKey keys i' x := by
  obtain ⟨j, b, le', key, path⟩ := h
  exact ⟨j, b, le'.trans le, key, wider x b path⟩

theorem LeadsOn.mono {p' : Digraph} (h : p.LeadsOn start keys u v)
    (wider : ∀ x y, p.Reaches x y → p'.Reaches x y) : p'.LeadsOn start keys u v := by
  obtain ⟨i, a, b, source, key, path, onward⟩ := h
  exact ⟨i, a, b, source, key, wider a u path, onward.mono wider le_rfl⟩

/-- What the legs up to a place in the list of keys leave: all that leads on reaches one of the keys so far,
and every kept edge lies between two of them. -/
structure Walk.Leads (start : Nat) (keys : List Nat) (n : Nat) (w : Walk) : Prop where
  sound : w.Sound
  onward : ∀ x ∈ w.leading, ∃ i < n, w.kept.ReachesKey keys i x
  edges : ∀ x y, w.kept.Edge x y → w.kept.LeadsOn start keys x y

/-- One more leg adds edges between its two ends. -/
theorem Walk.Leads.leg {n bound key : Nat} (h : w.Leads start keys n) (source : (start :: keys)[n]? = some u)
    (target : keys[n]? = some key) : (g.leg rank? bound u key w).Leads start keys (n + 1) := by
  have extended := leg_extends g rank? bound u key w
  have headed : (w.heading u key).Sound := h.sound.heading
  have connected : (w.heading u key).Connects u (g.leg rank? bound u key w) := walk_connects g _ _ u headed
  have wider : ∀ x y, w.kept.Reaches x y → (g.leg rank? bound u key w).kept.Reaches x y := fun x y path =>
    Relation.ReflTransGen.mono (fun _ _ => leg_kept) x y path
  have onward : ∀ x ∈ (g.leg rank? bound u key w).leading, (g.leg rank? bound u key w).kept.ReachesKey keys n x := by
    intro x mem
    obtain ⟨k, known, path⟩ := connected.onward x mem
    rcases Walk.mem_heading_leading.1 known with rfl | known
    · exact ⟨n, k, le_rfl, target, path⟩
    · obtain ⟨i, less, j, b, le, place, there⟩ := h.onward k known
      exact ⟨j, b, le.trans less.le, place, path.trans (wider k b there)⟩
  refine ⟨extended.sound headed, fun x mem => ⟨n, n.lt_succ_self, onward x mem⟩, fun x y edge => ?_⟩
  rcases extended.edges x y edge with old | ⟨-, -, -, leads⟩
  · rw [Walk.heading_kept] at old
    exact (h.edges x y old).mono wider
  · rcases connected.rooted x y edge with old | path
    · rw [Walk.heading_kept] at old
      exact (h.edges x y old).mono wider
    · exact ⟨n, u, key, source, target, path, onward y leads⟩

/-- The legs to all remaining keys leave the same. -/
theorem walkKeys_leads {n : Nat} {rest : List Nat} (h : w.Leads start keys n)
    (source : (start :: keys)[n]? = some u) (remaining : keys.drop n = rest)
    (walked : g.walkKeys rank? u rest w = .ok w') : w'.Leads start keys (n + rest.length) := by
  induction rest generalizing n u w with
  | nil =>
    cases walked
    exact h
  | cons key rest ih =>
    have target : keys[n]? = some key := by rw [← List.head?_drop, remaining, List.head?_cons]
    have after : keys.drop (n + 1) = rest := by rw [← List.tail_drop, remaining, List.tail_cons]
    cases hb : rank? key with
    | none => simp only [walkKeys, hb, reduceCtorEq] at walked
    | some bound =>
      rw [walkKeys_cons hb] at walked
      rw [List.length_cons, Nat.add_comm rest.length 1, ← Nat.add_assoc]
      exact ih (h.leg source target) (by rw [List.getElem?_cons_succ, target]) after walked

/-- Walking from key to key fails if and only if some key has no rank. -/
theorem walkKeys_fails_iff : (∃ e, g.walkKeys rank? u keys w = .error e) ↔ ∃ key ∈ keys, rank? key = none := by
  induction keys generalizing u w with
  | nil =>
    constructor
    · rintro ⟨e, failed⟩
      cases failed
    · rintro ⟨key, mem, -⟩
      cases mem
  | cons key keys ih =>
    rw [List.exists_mem_cons_iff]
    cases hb : rank? key with
    | none => exact ⟨fun _ => .inl rfl, fun _ => ⟨.unreachableKey key, by rw [walkKeys, hb]⟩⟩
    | some bound =>
      rw [walkKeys_cons hb, ih]
      simp only [reduceCtorEq, false_or]

end Legs

/-- Pruning keeps all vertices. -/
theorem vertices_prune (closed : g.Closed) (pruned : g.prune keys = .ok p) : p.vertices = g.vertices := by
  have source : ∀ {u v}, g.Edge u v → u ∈ g.vertices := by
    intro u v edge
    obtain ⟨e, found, -⟩ := edge_iff.1 edge
    have key : e.1 = u := by simpa using List.find?_some found
    exact List.mem_map.2 ⟨e, List.mem_of_find?_eq_some found, key⟩
  refine prune_keeps (I := fun p => p.vertices = g.vertices) (fun p u v edge same => ?_) ?_ pruned
  · have known : p.addVertex u = p := if_pos (contains_iff.2 (same ▸ source edge))
    have known' : p.addVertex v = p := if_pos (contains_iff.2 (same ▸ mem_vertices_of_edge closed edge))
    rw [vertices_addEdge, known, known']
    exact same
  · simp only [vertices, edgeless, List.map_map]
    rfl

/-- Pruning keeps no edges but those of the graph. -/
theorem prune_edge (pruned : g.prune keys = .ok p) : ∀ u v, p.Edge u v → g.Edge u v := by
  refine prune_keeps (I := fun p => ∀ u v, p.Edge u v → g.Edge u v) (fun p u v edge sub x y added => ?_)
    (fun x y edge => absurd edge edgeless_edge) pruned
  rcases addEdge_edge.1 added with old | ⟨rfl, rfl⟩
  · exact sub x y old
  · exact edge

/-- Pruning fails if and only if the graph is empty or its entry does not reach some key. -/
theorem prune_fails_iff (closed : g.Closed) : (∃ e, g.prune keys = .error e) ↔
    g.vertices = [] ∨ ∃ entry, g.vertices.head? = some entry ∧ ∃ key ∈ keys, ¬ g.Reaches entry key := by
  cases vertices : g.vertices with
  | nil =>
    have failed : g.prune keys = .error .emptyGraph := by
      unfold prune
      rw [vertices]
    exact ⟨fun _ => .inl rfl, fun _ => ⟨_, failed⟩⟩
  | cons entry rest =>
    have known : entry ∈ g.vertices := vertices ▸ List.mem_cons_self
    have walking : (∃ e, g.prune keys = .error e) ↔
        ∃ e, g.walkKeys (g.rank? entry) entry keys ⟨[], [], g.edgeless⟩ = .error e := by
      rw [prune_eq vertices]
      cases g.walkKeys (g.rank? entry) entry keys ⟨[], [], g.edgeless⟩ with
      | ok w => simp [Except.map]
      | error e => simp [Except.map]
    have fails : (∃ e, g.prune keys = .error e) ↔ ∃ key ∈ keys, ¬ g.Reaches entry key := by
      rw [walking, walkKeys_fails_iff]
      simp only [← rank?_isSome_iff closed known, Bool.not_eq_true, Option.isSome_eq_false_iff,
        Option.isNone_iff_eq_none]
    rw [fails]
    constructor
    · intro missed
      exact .inr ⟨entry, rfl, missed⟩
    · rintro (none | ⟨entry', same, missed⟩)
      · cases none
      · cases same
        exact missed

/-- Pruning keeps the vertices in their order and some of the edges, each of which lies between two keys
along kept edges; it fails if and only if the graph is empty or its entry does not reach some key. -/
theorem prune_leads (closed : g.Closed) (keys : List Nat) :
    (∀ p, g.prune keys = .ok p → p.vertices = g.vertices ∧ ∃ entry, g.vertices.head? = some entry ∧
      ∀ u v, p.Edge u v → g.Edge u v ∧ p.LeadsOn entry keys u v) ∧
    ((∃ e, g.prune keys = .error e) ↔
      g.vertices = [] ∨ ∃ entry, g.vertices.head? = some entry ∧ ∃ key ∈ keys, ¬ g.Reaches entry key) := by
  refine ⟨fun p pruned => ⟨vertices_prune closed pruned, ?_⟩, prune_fails_iff closed⟩
  have within := prune_edge pruned
  obtain ⟨entry, rest, w, vertices, walked, rfl⟩ := prune_ok pruned
  have start : Walk.Leads entry keys 0 ⟨[], [], g.edgeless⟩ :=
    ⟨fun x y edge => absurd edge edgeless_edge, (fun x mem => nomatch mem),
      fun x y edge => absurd edge edgeless_edge⟩
  have leads := walkKeys_leads start rfl rfl walked
  exact ⟨entry, by rw [vertices, List.head?_cons], fun u v edge => ⟨within u v edge, leads.edges u v edge⟩⟩

/-- The way back of a loop is kept for the key on it; no way leads to a fourth vertex. -/
theorem prune_leads_keyInLoop :
    (∃ p, keyInLoop.prune [2, 3] = .ok p ∧ p.Edge 2 1 ∧ p.LeadsOn 0 [2, 3] 2 1) ∧ ¬ keyInLoop.Reaches 0 4 := by
  have closed : keyInLoop.Closed := by decide
  constructor
  · obtain ⟨-, entry, first, edges⟩ := (prune_leads closed [2, 3]).1 _ keyInLoop_prune
    cases first
    exact ⟨_, keyInLoop_prune, by decide, (edges 2 1 (by decide)).2⟩
  · have failed : ∃ e, keyInLoop.prune [4] = .error e := ⟨.unreachableKey 4, by decide +kernel⟩
    rcases (prune_leads closed [4]).2.1 failed with none | ⟨entry, first, key, mem, missed⟩
    · cases none
    · cases first
      cases List.mem_singleton.1 mem
      exact missed

end SinkReach.Digraph
