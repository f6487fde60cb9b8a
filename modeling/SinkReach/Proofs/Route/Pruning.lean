import SinkReach.Proofs.Route.KeyWalk

/-!
What pruning keeps. In an acyclic graph the edges kept are those between one key and the next, so that
every path which is left visits the keys in order. With cycles a vertex entered on the way to one key is
not entered again on the way to the next, and a path survives for certain only where ranks go up along it.
-/
namespace SinkReach

/-- The keys occur among the vertices in order; equal keys in a row may share an occurrence. -/
inductive Visits : List Nat → List Nat → Prop where
  | done (vs : List Nat) : Visits vs []
  | here {v : Nat} {vs keys : List Nat} : Visits (v :: vs) keys → Visits (v :: vs) (v :: keys)
  | later {v : Nat} {vs keys : List Nat} : Visits vs keys → Visits (v :: vs) keys

/-- Some walk from the vertex along related vertices visits the keys in order. -/
def Tours (R : Nat → Nat → Prop) (start : Nat) (keys : List Nat) : Prop :=
  ∃ walk, (start :: walk).IsChain R ∧ Visits (start :: walk) keys

section Tours

variable {R : Nat → Nat → Prop} {u v : Nat} {keys : List Nat}

theorem Visits.chain {vs : List Nat} (h : Visits vs keys) :
    ∀ {start walk}, vs = start :: walk → (start :: walk).IsChain R →
      (start :: keys).IsChain (Relation.ReflTransGen R) := by
  induction h with
  | done => exact fun _ _ => .singleton _
  | here _ ih =>
    intro start walk eq chain
    cases eq
    exact .cons_cons .refl (ih rfl chain)
  | @later v vs keys rest ih =>
    intro start walk eq chain
    cases eq
    cases chain with
    | singleton =>
      cases rest
      exact .singleton _
    | cons_cons step chain =>
      have after := ih rfl chain
      cases after with
      | singleton => exact .singleton _
      | cons_cons path others => exact .cons_cons (.head step path) others

/-- A tour is a path from each key to the next. -/
theorem tours_iff_chain : Tours R u keys ↔ (u :: keys).IsChain (Relation.ReflTransGen R) := by
  constructor
  · rintro ⟨walk, chain, visits⟩
    exact visits.chain rfl chain
  · intro chain
    induction keys generalizing u with
    | nil => exact ⟨[], .singleton _, .done _⟩
    | cons key keys ih =>
      obtain ⟨path, others⟩ := List.isChain_cons_cons.1 chain
      induction path using Relation.ReflTransGen.head_induction_on with
      | refl =>
        obtain ⟨walk, chain, visits⟩ := ih others
        exact ⟨walk, chain, .here visits⟩
      | head step path tour =>
        obtain ⟨walk, chain, visits⟩ := tour (.cons_cons path others)
        exact ⟨_ :: walk, .cons_cons step chain, .later visits⟩

end Tours

namespace Digraph

variable {g : Digraph} {rank? : Nat → Option Nat} {entry key u v x y : Nat} {keys rest : List Nat} {w : Walk}

/-- The edge lies on a path from one of the vertices, the start or a key, to the key after it. -/
def OnLeg (g : Digraph) (start : Nat) (keys : List Nat) (u v : Nat) : Prop :=
  ∃ i a b : Nat, (start :: keys)[i]? = some a ∧ keys[i]? = some b ∧
    g.Reaches a u ∧ g.Edge u v ∧ g.Reaches v b

theorem not_onLeg_nil : ¬ g.OnLeg u [] x y := by
  rintro ⟨i, a, b, -, missing, -⟩
  simp at missing

theorem onLeg_cons : g.OnLeg u (key :: keys) x y ↔
    (g.Reaches u x ∧ g.Edge x y ∧ g.Reaches y key) ∨ g.OnLeg key keys x y := by
  constructor
  · rintro ⟨i, a, b, source, target, on⟩
    cases i with
    | zero =>
      cases source
      cases target
      exact .inl on
    | succ i => exact .inr ⟨i, a, b, source, target, on⟩
  · rintro (on | ⟨i, a, b, source, target, on⟩)
    · exact ⟨0, u, key, rfl, rfl, on⟩
    · exact ⟨i + 1, a, b, source, target, on⟩

theorem OnLeg.edge (h : g.OnLeg u keys x y) : g.Edge x y := by
  obtain ⟨_, _, _, _, _, _, edge, _⟩ := h
  exact edge

/-- Legs start behind the first vertex if each key is behind the one before it. -/
theorem OnLeg.reaches (h : g.OnLeg u keys x y) (ordered : (u :: keys).IsChain g.Reaches) : g.Reaches u x := by
  induction keys generalizing u with
  | nil => exact absurd h not_onLeg_nil
  | cons key keys ih =>
    obtain ⟨path, ordered⟩ := List.isChain_cons_cons.1 ordered
    rcases onLeg_cons.1 h with on | later
    · exact on.1
    · exact path.trans (ih later ordered)

section Ranked

/-- A vertex behind a ranked one, with ranks going up on the way. -/
def Climbs (g : Digraph) (rank? : Nat → Option Nat) : Nat → Nat → Prop :=
  Relation.ReflTransGen fun u v => g.Edge u v ∧ Ascends rank? u v

/-- The vertex has a rank, which is at most that of the other. -/
def AtMost (rank? : Nat → Option Nat) (u v : Nat) : Prop :=
  ∃ i j, rank? u = some i ∧ rank? v = some j ∧ i ≤ j

theorem AtMost.refl (known : (rank? u).isSome = true) : AtMost rank? u u := by
  obtain ⟨i, hi⟩ := Option.isSome_iff_exists.1 known
  exact ⟨i, i, hi, hi, le_rfl⟩

theorem AtMost.trans (h : AtMost rank? u v) (h' : AtMost rank? v x) : AtMost rank? u x := by
  obtain ⟨i, j, hi, hj, le⟩ := h
  obtain ⟨j', k, hj', hk, le'⟩ := h'
  cases hj.symm.trans hj'
  exact ⟨i, k, hi, hk, le.trans le'⟩

theorem AtMost.of_ascends (h : Ascends rank? u v) : AtMost rank? u v := by
  obtain ⟨i, j, hi, hj, lt⟩ := h
  exact ⟨i, j, hi, hj, lt.le⟩

theorem AtMost.not_ascends (h : AtMost rank? v u) : ¬ Ascends rank? u v := by
  rintro ⟨i, j, hi, hj, lt⟩
  obtain ⟨j', i', hj', hi', le⟩ := h
  cases hj.symm.trans hj'
  cases hi.symm.trans hi'
  omega

theorem Ascends.trans (h : Ascends rank? u v) (h' : AtMost rank? v x) : Ascends rank? u x := by
  obtain ⟨i, j, hi, hj, lt⟩ := h
  obtain ⟨j', k, hj', hk, le⟩ := h'
  cases hj.symm.trans hj'
  exact ⟨i, k, hi, hk, by omega⟩

theorem Climbs.atMost (h : g.Climbs rank? u v) (known : (rank? u).isSome = true) : AtMost rank? u v := by
  induction h with
  | refl => exact .refl known
  | tail _ step ih => exact ih.trans (.of_ascends step.2)

theorem any_le_iff {bound : Nat} (hb : rank? key = some bound) :
    (rank? v).any (fun i => decide (i ≤ bound)) = true ↔ AtMost rank? v key := by
  rw [Option.any_eq_true]
  constructor
  · rintro ⟨i, hi, le⟩
    exact ⟨i, bound, hi, hb, of_decide_eq_true le⟩
  · rintro ⟨i, j, hi, hj, le⟩
    cases hb.symm.trans hj
    exact ⟨i, hi, decide_eq_true le⟩

/-- The walk as a leg to the key starts. -/
def Walk.heading (w : Walk) (u key : Nat) : Walk := (w.lead key).visit u

theorem Walk.mem_heading_visited : x ∈ (w.heading u key).visited ↔ x = u ∨ x ∈ w.visited := by
  unfold heading visit
  rw [lead_visited]
  exact List.mem_cons

theorem Walk.mem_heading_leading : x ∈ (w.heading u key).leading ↔ x = key ∨ x ∈ w.leading := Walk.mem_lead

theorem Walk.heading_kept (w : Walk) (u key : Nat) : (w.heading u key).kept = w.kept := Walk.lead_kept ..

theorem Walk.Sound.heading (h : w.Sound) : (w.heading u key).Sound := by
  intro x y edge
  rw [heading_kept] at edge
  exact mem_heading_leading.2 (.inr (h x y edge))

/-- The walk of one leg, from one key to the next. -/
def leg (g : Digraph) (rank? : Nat → Option Nat) (bound u key : Nat) (w : Walk) : Walk :=
  g.walk (fun v => (rank? v).any (· ≤ bound)) (g.order + 1) u (w.heading u key)

theorem leg_extends (g : Digraph) (rank? : Nat → Option Nat) (bound u key : Nat) (w : Walk) :
    Walk.Extends g (fun v => (rank? v).any (· ≤ bound)) u (w.heading u key) (g.leg rank? bound u key w) :=
  walk_extends ..

theorem leg_kept {bound : Nat} (old : w.kept.Edge x y) : (g.leg rank? bound u key w).kept.Edge x y :=
  (leg_extends ..).kept x y (by rwa [Walk.heading_kept])

theorem walkKeys_cons {bound : Nat} (hb : rank? key = some bound) :
    g.walkKeys rank? u (key :: keys) w = g.walkKeys rank? key keys (g.leg rank? bound u key w) := by
  rw [walkKeys, hb]
  rfl

theorem prune_eq (vertices : g.vertices = entry :: rest) :
    g.prune keys = (g.walkKeys (g.rank? entry) entry keys ⟨[], [], g.edgeless⟩).map (·.kept) := by
  unfold prune
  rw [vertices]
  rfl

theorem prune_ok {p : Digraph} (h : g.prune keys = .ok p) :
    ∃ entry rest w, g.vertices = entry :: rest ∧
      g.walkKeys (g.rank? entry) entry keys ⟨[], [], g.edgeless⟩ = .ok w ∧ w.kept = p := by
  cases vertices : g.vertices with
  | nil =>
    unfold prune at h
    rw [vertices] at h
    cases h
  | cons entry rest =>
    rw [prune_eq vertices] at h
    cases walked : g.walkKeys (g.rank? entry) entry keys ⟨[], [], g.edgeless⟩ with
    | error e =>
      rw [walked] at h
      cases h
    | ok w =>
      rw [walked] at h
      cases h
      exact ⟨entry, rest, w, rfl, walked, rfl⟩

end Ranked

section Cyclic

/-- What a leg that climbs to its key leaves: a kept path to it, and no vertex entered that ranks above. -/
theorem leg_climbs {bound : Nat} (closed : g.Closed) (hb : rank? key = some bound) (sound : w.Sound)
    (below : ∀ y ∈ w.visited, AtMost rank? y u) (known : (rank? u).isSome = true)
    (climb : g.Climbs rank? u key) :
    (g.leg rank? bound u key w).Sound ∧ (∀ y ∈ (g.leg rank? bound u key w).visited, AtMost rank? y key) ∧
      (g.leg rank? bound u key w).kept.Reaches u key := by
  have extended := leg_extends g rank? bound u key w
  have lower : AtMost rank? u key := climb.atMost known
  have visited : ∀ y ∈ (w.heading u key).visited, AtMost rank? y u := by
    intro y hy
    rcases Walk.mem_heading_visited.1 hy with rfl | hy
    · exact .refl known
    · exact below y hy
  refine ⟨extended.sound sound.heading, ?_, ?_⟩
  · intro y hy
    rcases extended.entered y hy with old | ⟨admitted, -⟩
    · exact (visited y old).trans lower
    · exact (any_le_iff hb).1 admitted
  · rcases Relation.reflTransGen_iff_eq_or_transGen.1 climb with same | path
    · rw [same]
      exact .refl
    obtain ⟨meets, first⟩ : Walk.Meets g (fun y => (rank? y).any (· ≤ bound)) (w.heading u key)
        (g.leg rank? bound u key w) ∧ ∀ y, g.Edge u y → (rank? y).any (· ≤ bound) = true →
        y ∈ (g.leg rank? bound u key w).visited :=
      walk_meets closed (Nat.lt_succ_of_le (unmet_le_order g _))
    have admitted : ∀ y z, Ascends rank? y z → g.Climbs rank? z key → (rank? z).any (· ≤ bound) = true := by
      rintro y z ⟨-, j, -, hj, -⟩ onward
      exact (any_le_iff hb).2 (onward.atMost (by rw [hj]; rfl))
    -- Ranks on the way lie between those of the two keys, so all of it is entered now.
    have above : ∀ z, Relation.TransGen (fun u v => g.Edge u v ∧ Ascends rank? u v) u z →
        g.Climbs rank? z key → Ascends rank? u z ∧ z ∈ (g.leg rank? bound u key w).visited := by
      intro z path
      induction path with
      | single step =>
        intro onward
        exact ⟨step.2, first _ step.1 (admitted _ _ step.2 onward)⟩
      | tail path step ih =>
        intro onward
        obtain ⟨up, met⟩ := ih (.head step onward)
        have new : _ ∉ (w.heading u key).visited := fun old => (visited _ old).not_ascends up
        exact ⟨up.trans (.of_ascends step.2), meets _ met new _ step.1 (admitted _ _ step.2 onward)⟩
    obtain ⟨up, met⟩ := above key path .refl
    rcases extended.traced sound.heading key (Walk.mem_heading_leading.2 (.inl rfl)) met with old | found
    · exact absurd up (visited key old).not_ascends
    · exact found

/-- Where ranks go up from key to key, every leg leaves a path to its key. -/
theorem walkKeys_climbs (closed : g.Closed) (sound : w.Sound) (below : ∀ y ∈ w.visited, AtMost rank? y u)
    (known : (rank? u).isSome = true) (climb : (u :: keys).IsChain (g.Climbs rank?)) :
    ∃ w', g.walkKeys rank? u keys w = .ok w' ∧ (∀ x y, w.kept.Edge x y → w'.kept.Edge x y) ∧
      (u :: keys).IsChain w'.kept.Reaches := by
  induction keys generalizing u w with
  | nil => exact ⟨w, rfl, fun _ _ edge => edge, .singleton _⟩
  | cons key keys ih =>
    obtain ⟨climb, others⟩ := List.isChain_cons_cons.1 climb
    obtain ⟨-, bound, -, hb, -⟩ := climb.atMost known
    obtain ⟨sound', below', path⟩ := leg_climbs closed hb sound below known climb
    obtain ⟨w', ok, kept', chain⟩ := ih sound' below' (by rw [hb]; rfl) others
    refine ⟨w', (walkKeys_cons hb).trans ok, fun x y edge => kept' x y (leg_kept edge), ?_⟩
    exact .cons_cons (Relation.ReflTransGen.mono kept' _ _ path) chain

/-- Pruning keeps a walk through the keys in order wherever there is one along which ranks go up. -/
theorem prune_tours (closed : g.Closed) (vertices : g.vertices = entry :: rest)
    (tour : Tours (fun u v => g.Edge u v ∧ Ascends (g.rank? entry) u v) entry keys) :
    ∃ p, g.prune keys = .ok p ∧ Tours p.Edge entry keys := by
  have ranked : (g.rank? entry entry).isSome = true := rankIn?_isSome.2 (entry_mem_finishing g entry)
  have sound : Walk.Sound ⟨[], [], g.edgeless⟩ := fun x y edge => absurd edge edgeless_edge
  obtain ⟨w, ok, -, chain⟩ := walkKeys_climbs closed sound (fun _ h => nomatch h) ranked
    (tours_iff_chain.1 tour)
  refine ⟨w.kept, ?_, tours_iff_chain.2 chain⟩
  rw [prune_eq vertices, ok]
  rfl

/-- A loop whose key is inside, with another key behind the loop. -/
def keyInLoop : Digraph := ⟨[(0, [1]), (1, [2, 3]), (2, [1]), (3, [])]⟩

theorem keyInLoop_prune : keyInLoop.prune [2, 3] = .ok ⟨[(0, [1]), (1, [2]), (2, [1]), (3, [])]⟩ := by
  decide +kernel

/-- The way out of a loop is lost if a key lies on the way back: the loop was entered for that key, and
is not entered again for the next one. -/
theorem prune_loses_loop_exit :
    keyInLoop.Closed ∧ Tours keyInLoop.Edge 0 [2, 3] ∧
      ¬ ∃ p, keyInLoop.prune [2, 3] = .ok p ∧ Tours p.Edge 0 [2, 3] := by
  refine ⟨by decide, ⟨[1, 2, 1, 3], by decide, ?_⟩, ?_⟩
  · exact .later (.later (.here (.later (.later (.here (.done _))))))
  · rintro ⟨p, ok, tour⟩
    rw [keyInLoop_prune] at ok
    cases ok
    have path := (List.isChain_cons_cons.1 (List.isChain_cons_cons.1 (tours_iff_chain.1 tour)).2).1
    have trapped : ∀ x, Digraph.Reaches ⟨[(0, [1]), (1, [2]), (2, [1]), (3, [])]⟩ 2 x → x = 1 ∨ x = 2 := by
      intro x path
      induction path with
      | refl => exact .inr rfl
      | tail _ edge ih =>
        rcases ih with rfl | rfl
        · exact .inr (List.mem_singleton.1 edge)
        · exact .inl (List.mem_singleton.1 edge)
    rcases trapped 3 path with same | same <;> cases same

/-- Out of the same loop a single key is reached. -/
theorem prune_tours_keyInLoop : ∃ p, keyInLoop.prune [3] = .ok p ∧ Tours p.Edge 0 [3] := by
  have closed : keyInLoop.Closed := by decide
  refine prune_tours closed rfl ⟨[1, 3], ?_, .later (.later (.here (.done _)))⟩
  have first : Ascends (keyInLoop.rank? 0) 0 1 := ⟨0, 1, by decide +kernel, by decide +kernel, by decide⟩
  have second : Ascends (keyInLoop.rank? 0) 1 3 := ⟨1, 2, by decide +kernel, by decide +kernel, by decide⟩
  exact .cons_cons ⟨by decide, first⟩ (.cons_cons ⟨by decide, second⟩ (.singleton _))

end Cyclic

section Acyclic

theorem Precedes.ascends (ranked : ∀ x y, g.Reaches u x → g.Edge x y → Ascends rank? x y)
    (path : g.Precedes u v) : Ascends rank? u v := by
  induction path with
  | single edge => exact ranked u _ .refl edge
  | tail path edge ih => exact ih.trans (.of_ascends (ranked _ _ path.to_reflTransGen edge))

/-- Nothing that the walk has met lies behind the vertex, so that the next leg starts afresh. -/
structure Walk.Behind (g : Digraph) (u : Nat) (w : Walk) : Prop where
  sound : w.Sound
  visited : ∀ y ∈ w.visited, ¬ g.Precedes u y
  leading : ∀ y ∈ w.leading, ¬ g.Precedes u y

/-- The leg keeps an edge for every step that leads to its key. -/
theorem leg_complete {bound : Nat} (closed : g.Closed) (acyclic : g.Acyclic) (hb : rank? key = some bound)
    (ranked : ∀ x y, g.Reaches u x → g.Edge x y → Ascends rank? x y) (behind : w.Behind g u)
    (source : g.Reaches u x) (edge : g.Edge x y) (target : g.Reaches y key) :
    (g.leg rank? bound u key w).kept.Edge x y := by
  have admitted : ∀ z, g.Precedes u z → g.Reaches z key → (rank? z).any (· ≤ bound) = true := by
    intro z path onward
    refine (any_le_iff hb).2 ?_
    rcases Relation.reflTransGen_iff_eq_or_transGen.1 onward with rfl | onward
    · exact .refl (by rw [hb]; rfl)
    · exact .of_ascends (Precedes.ascends (fun x y there => ranked x y (path.to_reflTransGen.trans there)) onward)
  have fresh : ∀ z ∈ (w.heading u key).visited, g.Precedes u z → (w.heading u key).Done g key z := by
    intro z hz path
    rcases Walk.mem_heading_visited.1 hz with rfl | hz
    · exact absurd path (acyclic z)
    · exact absurd path (behind.visited z hz)
  have ready : (w.heading u key).Ready g (fun z => (rank? z).any (· ≤ bound)) key (g.order + 1) u :=
    ⟨Nat.lt_succ_of_le (unmet_le_order g _), behind.sound.heading, Walk.mem_heading_leading.2 (.inl rfl),
      admitted, fresh⟩
  obtain ⟨self, others⟩ := walk_done closed acyclic ready
  -- Every vertex on the way is entered, and done with once the walk is back.
  have done : ∀ z, g.Reaches u z → g.Reaches z key → (g.leg rank? bound u key w).Done g key z := by
    intro z path
    induction path with
    | refl => exact fun _ => self
    | tail path step ih =>
      intro onward
      obtain ⟨met, -⟩ := (ih (.head step onward)).2 _ step onward
      exact others _ met (.tail' path step)
  exact ((done x source (.head edge target)).2 y edge target).2

/-- The leg keeps no other edge, and leaves nothing behind its key. -/
theorem leg_sound {bound : Nat} (acyclic : g.Acyclic) (hb : rank? key = some bound)
    (ranked : ∀ x y, g.Reaches u x → g.Edge x y → Ascends rank? x y) (path : g.Reaches u key)
    (behind : w.Behind g u) :
    (g.leg rank? bound u key w).Behind g key ∧
      ∀ x y, (g.leg rank? bound u key w).kept.Edge x y →
        w.kept.Edge x y ∨ g.Reaches u x ∧ g.Edge x y ∧ g.Reaches y key := by
  have extended := leg_extends g rank? bound u key w
  have above : ∀ y, (rank? y).any (· ≤ bound) = true → ¬ g.Precedes key y := by
    intro y admitted onward
    have up := Precedes.ascends (fun x y there => ranked x y (path.trans there)) onward
    exact ((any_le_iff hb).1 admitted).not_ascends up
  have noReturn : ¬ g.Precedes key u := fun back => acyclic key (back.trans_left path)
  refine ⟨⟨extended.sound behind.sound.heading, fun y hy => ?_, fun y hy => ?_⟩, fun x y kept => ?_⟩
  · rcases extended.entered y hy with old | ⟨admitted, -⟩
    · rcases Walk.mem_heading_visited.1 old with rfl | old
      · exact noReturn
      · exact fun onward => behind.visited y old (onward.trans_right path)
    · exact above y admitted
  · rcases extended.led y hy with old | rfl | ⟨admitted, -⟩
    · rcases Walk.mem_heading_leading.1 old with rfl | old
      · exact acyclic y
      · exact fun onward => behind.leading y old (onward.trans_right path)
    · exact noReturn
    · exact above y admitted
  · rcases extended.edges x y kept with old | ⟨source, edge, -, lead⟩
    · exact .inl (Walk.heading_kept .. ▸ old)
    · obtain ⟨k, known, onward⟩ := extended.leads y lead
      rcases Walk.mem_heading_leading.1 known with rfl | old
      · exact .inr ⟨source, edge, onward⟩
      · exact absurd ((Relation.TransGen.tail' source edge).trans_left onward) (behind.leading k old)

/-- The edges kept on the way through the keys are those of their legs. -/
theorem walkKeys_exact (closed : g.Closed) (acyclic : g.Acyclic)
    (ranked : ∀ x y, g.Reaches u x → g.Edge x y → Ascends rank? x y) (known : (rank? u).isSome = true)
    (behind : w.Behind g u) (ordered : (u :: keys).IsChain g.Reaches) :
    ∃ w', g.walkKeys rank? u keys w = .ok w' ∧
      ∀ x y, w'.kept.Edge x y ↔ w.kept.Edge x y ∨ g.OnLeg u keys x y := by
  induction keys generalizing u w with
  | nil => exact ⟨w, rfl, fun x y => (or_iff_left not_onLeg_nil).symm⟩
  | cons key keys ih =>
    obtain ⟨path, ordered⟩ := List.isChain_cons_cons.1 ordered
    have keyRanked : (rank? key).isSome = true := by
      rcases Relation.reflTransGen_iff_eq_or_transGen.1 path with rfl | path
      · exact known
      · obtain ⟨-, j, -, hj, -⟩ := Precedes.ascends ranked path
        rw [hj]
        rfl
    obtain ⟨bound, hb⟩ := Option.isSome_iff_exists.1 keyRanked
    obtain ⟨behind', sound⟩ := leg_sound acyclic hb ranked path behind
    obtain ⟨w', ok, edges⟩ := ih (fun x y there => ranked x y (path.trans there)) keyRanked behind' ordered
    refine ⟨w', (walkKeys_cons hb).trans ok, fun x y => ?_⟩
    rw [edges, onLeg_cons, ← or_assoc]
    refine or_congr_left ⟨sound x y, ?_⟩
    rintro (old | ⟨source, edge, target⟩)
    · exact leg_kept old
    · exact leg_complete closed acyclic hb ranked behind source edge target

/-- From where the legs of a key start, only later legs go on. -/
theorem OnLeg.later (acyclic : g.Acyclic) (h : g.OnLeg u (key :: keys) x y) (there : g.Reaches key x) :
    g.OnLeg key keys x y := by
  rcases onLeg_cons.1 h with ⟨-, edge, back⟩ | later
  · exact absurd ((Relation.TransGen.tail' there edge).trans_left back) (acyclic key)
  · exact later

theorem reaches_getLast (ordered : (u :: keys).IsChain g.Reaches) :
    ∀ last ∈ (u :: keys).getLast?, g.Reaches u last := by
  induction keys generalizing u with
  | nil =>
    intro last same
    cases same
    exact .refl
  | cons key keys ih =>
    obtain ⟨path, ordered⟩ := List.isChain_cons_cons.1 ordered
    exact fun last same => path.trans (ih ordered last same)

theorem later_legs (acyclic : g.Acyclic) {a : Nat} {walk : List Nat} (there : g.Reaches key a)
    (legs : (a :: walk).IsChain (g.OnLeg u (key :: keys))) : (a :: walk).IsChain (g.OnLeg key keys) := by
  induction walk generalizing a with
  | nil => exact .singleton _
  | cons b walk ih =>
    obtain ⟨leg, legs⟩ := List.isChain_cons_cons.1 legs
    exact .cons_cons (leg.later acyclic there) (ih (there.tail leg.edge) legs)

/-- A path of edges on the legs that ends at the last key visits all keys in order. -/
theorem visits_of_legs (acyclic : g.Acyclic) (ordered : (u :: keys).IsChain g.Reaches) {a : Nat}
    {walk : List Nat} (onward : ∀ key ∈ keys.head?, g.Reaches a key)
    (legs : (a :: walk).IsChain (g.OnLeg u keys)) (last : (a :: walk).getLast? = keys.getLast?) :
    Visits (a :: walk) keys := by
  induction keys generalizing u a walk with
  | nil => exact .done _
  | cons key keys ih =>
    obtain ⟨-, ordered⟩ := List.isChain_cons_cons.1 ordered
    have atKey : ∀ walk, (key :: walk).IsChain (g.OnLeg u (key :: keys)) →
        (key :: walk).getLast? = (key :: keys).getLast? → Visits (key :: walk) (key :: keys) := by
      intro walk legs last
      refine .here ?_
      cases keys with
      | nil => exact .done _
      | cons next keys =>
        refine ih ordered ?_ (later_legs acyclic .refl legs) last
        rintro _ ⟨⟩
        exact (List.isChain_cons_cons.1 ordered).1
    -- Until the path is at the key, its edges are of the first leg.
    have onward : g.Reaches a key := onward key rfl
    induction walk generalizing a with
    | nil =>
      have same : a = key := acyclic.antisymm onward (reaches_getLast ordered a last.symm)
      subst same
      exact atKey [] legs last
    | cons b walk more =>
      by_cases same : a = key
      · subst same
        exact atKey (b :: walk) legs last
      obtain ⟨leg, after⟩ := List.isChain_cons_cons.1 legs
      rcases onLeg_cons.1 leg with ⟨-, -, onward'⟩ | later
      · refine .later (more ?_ after last onward')
        rintro _ ⟨⟩
        exact onward'
      · exact absurd (acyclic.antisymm onward (later.reaches ordered)) same

/-- Pruning an acyclic graph keeps exactly the edges on paths from one key to the next, and all that is
left between the entry and the last key visits the keys in order. -/
theorem prune_acyclic (closed : g.Closed) (acyclic : g.Acyclic) (vertices : g.vertices = entry :: rest)
    (ordered : (entry :: keys).IsChain g.Reaches) :
    ∃ p, g.prune keys = .ok p ∧ (∀ u v, p.Edge u v ↔ g.OnLeg entry keys u v) ∧
      ∀ walk, p.IsWalk (entry :: walk) → (entry :: walk).getLast? = keys.getLast? →
        Visits (entry :: walk) keys := by
  obtain ⟨sorted, nodup⟩ := finishing_sorted closed acyclic vertices
  have finished : ∀ x, g.Reaches entry x → x ∈ g.finishing entry := by
    intro x path
    induction path with
    | refl => exact entry_mem_finishing g entry
    | tail _ edge ih => exact sorted.mem_of_edge ih edge
  have ranked : ∀ x y, g.Reaches entry x → g.Edge x y → Ascends (g.rank? entry) x y :=
    fun x y path edge => sorted.ascends nodup (finished x path) edge
  have behind : Walk.Behind g entry ⟨[], [], g.edgeless⟩ :=
    ⟨fun x y edge => absurd edge edgeless_edge, (fun _ h => nomatch h), (fun _ h => nomatch h)⟩
  obtain ⟨w, ok, edges⟩ := walkKeys_exact closed acyclic ranked
    (rankIn?_isSome.2 (entry_mem_finishing g entry)) behind ordered
  have legs_iff : ∀ u v, w.kept.Edge u v ↔ g.OnLeg entry keys u v :=
    fun u v => (edges u v).trans (or_iff_right edgeless_edge)
  refine ⟨w.kept, (prune_eq vertices).trans (by rw [ok]; rfl), legs_iff, fun walk chain last => ?_⟩
  have legs : (entry :: walk).IsChain (g.OnLeg entry keys) := chain.imp fun u v => (legs_iff u v).1
  refine visits_of_legs acyclic ordered (fun key first => ?_) legs last
  cases keys with
  | nil => cases first
  | cons key keys =>
    cases first
    exact (List.isChain_cons_cons.1 ordered).1

/-- Two branches that join before the last key; the first key lies on one of them. -/
def keyOnBranch : Digraph := ⟨[(0, [1, 2]), (1, [3]), (2, [3]), (3, [4]), (4, [])]⟩

/-- Of two branches the one without the key is pruned. -/
theorem prune_keyOnBranch :
    ∃ p, keyOnBranch.prune [1, 4] = .ok p ∧ (∀ u v, p.Edge u v ↔ keyOnBranch.OnLeg 0 [1, 4] u v) ∧
      ∀ walk, p.IsWalk (0 :: walk) → (0 :: walk).getLast? = [1, 4].getLast? → Visits (0 :: walk) [1, 4] := by
  have closed : keyOnBranch.Closed := by decide
  have acyclic : keyOnBranch.Acyclic := acyclic_of_increasing (by decide)
  have first : keyOnBranch.Reaches 0 1 := .single (by decide)
  have second : keyOnBranch.Reaches 1 4 := .head (by decide) (.single (by decide : keyOnBranch.Edge 3 4))
  exact prune_acyclic closed acyclic rfl (.cons_cons first (.cons_cons second (.singleton _)))

end Acyclic
end Digraph
end SinkReach
