import SinkReach.Proofs.Route.Ranking

/-!
Walks toward a key. A walk enters the admissible vertices that it meets, each once, and keeps the edges
into vertices that are known to lead to the key when the walk is back from them. In an acyclic graph a
vertex that was entered is done with before an edge into it is judged, so that exactly the edges which
lead to the key are kept; with cycles the path on which the key was first met is kept in any case.
-/
namespace SinkReach.Digraph

variable {g : Digraph} {admissible : Nat → Bool} {fuel key u v x y : Nat} {w w' w'' : Walk}

namespace Walk

theorem mem_lead : x ∈ (w.lead v).leading ↔ x = v ∨ x ∈ w.leading := by
  unfold lead
  split
  next known => exact ⟨.inr, fun h => h.elim (fun same => same ▸ List.contains_iff_mem.1 known) id⟩
  next => exact List.mem_cons

theorem lead_visited (w : Walk) (v : Nat) : (w.lead v).visited = w.visited := by
  unfold lead
  split <;> rfl

theorem lead_kept (w : Walk) (v : Nat) : (w.lead v).kept = w.kept := by
  unfold lead
  split <;> rfl

theorem keep_visited (w : Walk) (u v : Nat) : (w.keep u v).visited = w.visited := lead_visited ..

theorem mem_keep_leading : x ∈ (w.keep u v).leading ↔ x = u ∨ x ∈ w.leading := mem_lead

theorem keep_edge : (w.keep u v).kept.Edge x y ↔ w.kept.Edge x y ∨ x = u ∧ y = v := by
  unfold keep
  rw [lead_kept]
  exact addEdge_edge

/-- Sources of kept edges lead to a key. -/
def Sound (w : Walk) : Prop := ∀ x y, w.kept.Edge x y → x ∈ w.leading

end Walk

/-- Crosses the edge to a successor: enters it unless that was done, and keeps the edge if it leads to a
key. -/
def cross (g : Digraph) (admissible : Nat → Bool) (fuel u : Nat) (w : Walk) (v : Nat) : Walk :=
  if admissible v then
    let w := if w.visited.contains v then w else g.walk admissible fuel v (w.visit v)
    if w.leading.contains v then w.keep u v else w
  else w

theorem walk_succ (g : Digraph) (admissible : Nat → Bool) (fuel u : Nat) (w : Walk) :
    g.walk admissible (fuel + 1) u w = (g.successors u).foldl (g.cross admissible fuel u) w := rfl

/-- The walk that has entered a vertex, now or before. -/
def enter (g : Digraph) (admissible : Nat → Bool) (fuel v : Nat) (w : Walk) : Walk :=
  if w.visited.contains v then w else g.walk admissible fuel v (w.visit v)

/-- The walk after the edge to a vertex was judged. -/
def judged (u v : Nat) (w : Walk) : Walk := if w.leading.contains v then w.keep u v else w

theorem cross_eq (g : Digraph) (admissible : Nat → Bool) (fuel u : Nat) (w : Walk) (v : Nat) :
    g.cross admissible fuel u w v =
      if admissible v then judged u v (g.enter admissible fuel v w) else w := rfl

theorem judged_visited (u v : Nat) (w : Walk) : (judged u v w).visited = w.visited := by
  unfold judged
  split
  · exact Walk.keep_visited ..
  · rfl

/-- What a walk from a vertex adds: vertices behind it that are admissible, edges between such vertices
that lead to a key, and a kept path to every key that it meets. What leads to a key on the way back
leads to one of those known before. -/
structure Walk.Extends (g : Digraph) (admissible : Nat → Bool) (u : Nat) (w w' : Walk) : Prop where
  visited : w.visited ⊆ w'.visited
  leading : w.leading ⊆ w'.leading
  kept : ∀ x y, w.kept.Edge x y → w'.kept.Edge x y
  entered : ∀ x ∈ w'.visited, x ∈ w.visited ∨ admissible x = true ∧ g.Precedes u x
  led : ∀ x ∈ w'.leading, x ∈ w.leading ∨ x = u ∨ admissible x = true ∧ g.Precedes u x
  edges : ∀ x y, w'.kept.Edge x y →
    w.kept.Edge x y ∨ g.Reaches u x ∧ g.Edge x y ∧ x ∈ w'.leading ∧ y ∈ w'.leading
  leads : ∀ x ∈ w'.leading, ∃ k ∈ w.leading, g.Reaches x k
  traced : w.Sound → ∀ k ∈ w.leading, k ∈ w'.visited → k ∈ w.visited ∨ w'.kept.Reaches u k

namespace Walk.Extends

theorem refl (g : Digraph) (admissible : Nat → Bool) (u : Nat) (w : Walk) :
    Extends g admissible u w w where
  visited := fun _ h => h
  leading := fun _ h => h
  kept := fun _ _ h => h
  entered := fun _ h => .inl h
  led := fun _ h => .inl h
  edges := fun _ _ h => .inl h
  leads := fun x h => ⟨x, h, .refl⟩
  traced := fun _ _ _ h => .inl h

theorem sound (h : Extends g admissible u w w') (sound : w.Sound) : w'.Sound := fun x y edge =>
  (h.edges x y edge).elim (fun old => h.leading (sound x y old)) fun new => new.2.2.1

theorem reaches (h : Extends g admissible u w w') (path : w.kept.Reaches x y) : w'.kept.Reaches x y :=
  Relation.ReflTransGen.mono h.kept _ _ path

theorem trans (h : Extends g admissible u w w') (h' : Extends g admissible u w' w'') :
    Extends g admissible u w w'' where
  visited := fun _ hx => h'.visited (h.visited hx)
  leading := fun _ hx => h'.leading (h.leading hx)
  kept := fun x y edge => h'.kept x y (h.kept x y edge)
  entered := fun x hx => (h'.entered x hx).elim (h.entered x) .inr
  led := fun x hx => (h'.led x hx).elim (h.led x) .inr
  edges := fun x y edge => by
    rcases h'.edges x y edge with old | new
    · rcases h.edges x y old with old | ⟨path, edge, source, target⟩
      · exact .inl old
      · exact .inr ⟨path, edge, h'.leading source, h'.leading target⟩
    · exact .inr new
  leads := fun x hx => by
    obtain ⟨k', lead', path'⟩ := h'.leads x hx
    obtain ⟨k, lead, path⟩ := h.leads k' lead'
    exact ⟨k, lead, path'.trans path⟩
  traced := fun sound k lead met => by
    rcases h'.traced (h.sound sound) k (h.leading lead) met with met | path
    · exact (h.traced sound k lead met).imp_right h'.reaches
    · exact .inr path

/-- A vertex whose subwalk kept a path is a source of that path. -/
theorem mem_leading_of_reaches (sound : w.Sound) (path : w.kept.Reaches v key) (lead : key ∈ w.leading) :
    v ∈ w.leading := by
  rcases Relation.ReflTransGen.cases_head path with rfl | ⟨z, edge, -⟩
  · exact lead
  · exact sound v z edge

/-- An edge is judged after the subwalk from its end. -/
theorem judge (edge : g.Edge u v) (admitted : admissible v = true)
    (sub : Extends g admissible v (w.visit v) w') : Extends g admissible u w (judged u v w') := by
  have behind : ∀ x, g.Precedes v x → g.Precedes u x := fun x path => .head edge path
  have entered : ∀ x ∈ w'.visited, x ∈ w.visited ∨ admissible x = true ∧ g.Precedes u x := by
    intro x hx
    rcases sub.entered x hx with old | ⟨pass, path⟩
    · rcases List.mem_cons.1 old with rfl | old
      · exact .inr ⟨admitted, .single edge⟩
      · exact .inl old
    · exact .inr ⟨pass, behind x path⟩
  have led : ∀ x ∈ w'.leading, x ∈ w.leading ∨ x = u ∨ admissible x = true ∧ g.Precedes u x := by
    intro x hx
    rcases sub.led x hx with old | rfl | ⟨pass, path⟩
    · exact .inl old
    · exact .inr (.inr ⟨admitted, .single edge⟩)
    · exact .inr (.inr ⟨pass, behind x path⟩)
  have edges : ∀ x y, w'.kept.Edge x y →
      w.kept.Edge x y ∨ g.Reaches u x ∧ g.Edge x y ∧ x ∈ w'.leading ∧ y ∈ w'.leading := by
    intro x y kept
    exact (sub.edges x y kept).imp_right fun new => ⟨.head edge new.1, new.2⟩
  unfold judged
  split
  next lead =>
    rw [List.contains_iff_mem] at lead
    exact {
      visited := fun x hx => by
        rw [keep_visited]
        exact sub.visited (List.mem_cons_of_mem _ hx)
      leading := fun x hx => mem_keep_leading.2 (.inr (sub.leading hx))
      kept := fun x y old => keep_edge.2 (.inl (sub.kept x y old))
      entered := fun x hx => entered x (keep_visited .. ▸ hx)
      led := fun x hx => by
        rcases mem_keep_leading.1 hx with same | hx
        · exact .inr (.inl same)
        · exact led x hx
      edges := fun x y kept => by
        rcases keep_edge.1 kept with old | ⟨rfl, rfl⟩
        · refine (edges x y old).imp_right fun new => ⟨new.1, new.2.1, ?_, ?_⟩
          · exact mem_keep_leading.2 (.inr new.2.2.1)
          · exact mem_keep_leading.2 (.inr new.2.2.2)
        · exact .inr ⟨.refl, edge, mem_keep_leading.2 (.inl rfl), mem_keep_leading.2 (.inr lead)⟩
      leads := fun x hx => by
        rcases mem_keep_leading.1 hx with rfl | hx
        · obtain ⟨k, known, path⟩ := sub.leads v lead
          exact ⟨k, known, .head edge path⟩
        · exact sub.leads x hx
      traced := fun sound k leads met => by
        rw [keep_visited] at met
        have step : (w'.keep u v).kept.Edge u v := keep_edge.2 (.inr ⟨rfl, rfl⟩)
        rcases sub.traced sound k leads met with old | path
        · rcases List.mem_cons.1 old with rfl | old
          · exact .inr (.single step)
          · exact .inl old
        · have wider : ∀ x y, w'.kept.Edge x y → (w'.keep u v).kept.Edge x y :=
            fun x y old => keep_edge.2 (.inl old)
          exact .inr (.head step (Relation.ReflTransGen.mono wider _ _ path)) }
  next astray =>
    rw [List.contains_iff_mem] at astray
    exact {
      visited := fun x hx => sub.visited (List.mem_cons_of_mem _ hx)
      leading := sub.leading
      kept := sub.kept
      entered := entered
      led := led
      edges := edges
      leads := sub.leads
      traced := fun sound k leads met => by
        rcases sub.traced sound k leads met with old | path
        · rcases List.mem_cons.1 old with rfl | old
          · exact absurd (sub.leading leads) astray
          · exact .inl old
        · exact absurd (mem_leading_of_reaches (sub.sound sound) path (sub.leading leads)) astray }

/-- An edge to a vertex that was entered before is judged at once. -/
theorem judge_met (edge : g.Edge u v) : Extends g admissible u w (judged u v w) := by
  unfold judged
  split
  next lead =>
    rw [List.contains_iff_mem] at lead
    exact {
      visited := fun x hx => by
        rw [keep_visited]
        exact hx
      leading := fun x hx => mem_keep_leading.2 (.inr hx)
      kept := fun x y old => keep_edge.2 (.inl old)
      entered := fun x hx => .inl (keep_visited .. ▸ hx)
      led := fun x hx => (mem_keep_leading.1 hx).elim (fun same => .inr (.inl same)) .inl
      edges := fun x y kept => by
        rcases keep_edge.1 kept with old | ⟨rfl, rfl⟩
        · exact .inl old
        · exact .inr ⟨.refl, edge, mem_keep_leading.2 (.inl rfl), mem_keep_leading.2 (.inr lead)⟩
      leads := fun x hx => by
        rcases mem_keep_leading.1 hx with rfl | hx
        · exact ⟨v, lead, .single edge⟩
        · exact ⟨x, hx, .refl⟩
      traced := fun _ k _ met => .inl (keep_visited .. ▸ met) }
  next => exact .refl ..

end Walk.Extends

open Walk

theorem cross_extends (sub : ∀ v w, Extends g admissible v w (g.walk admissible fuel v w))
    (edge : g.Edge u v) (w : Walk) : Extends g admissible u w (g.cross admissible fuel u w v) := by
  rw [cross_eq, enter]
  split
  next admitted =>
    split
    · exact .judge_met edge
    · exact .judge edge admitted (sub v _)
  next => exact .refl ..

theorem crossAll_extends (sub : ∀ v w, Extends g admissible v w (g.walk admissible fuel v w))
    {vs : List Nat} (edges : ∀ v ∈ vs, g.Edge u v) (w : Walk) :
    Extends g admissible u w (vs.foldl (g.cross admissible fuel u) w) := by
  induction vs generalizing w with
  | nil => exact .refl ..
  | cons v vs ih =>
    obtain ⟨edge, edges⟩ := List.forall_mem_cons.1 edges
    exact (cross_extends sub edge w).trans (ih edges _)

theorem walk_extends (g : Digraph) (admissible : Nat → Bool) (fuel u : Nat) (w : Walk) :
    Extends g admissible u w (g.walk admissible fuel u w) := by
  induction fuel generalizing u w with
  | zero => exact .refl ..
  | succ fuel ih =>
    rw [walk_succ]
    exact crossAll_extends ih (fun _ h => h) w

theorem mem_enter_visited (g : Digraph) (admissible : Nat → Bool) (fuel v : Nat) (w : Walk) :
    v ∈ (g.enter admissible fuel v w).visited := by
  unfold enter
  split
  next old => exact List.contains_iff_mem.1 old
  next => exact (walk_extends g admissible fuel v (w.visit v)).visited List.mem_cons_self

/-- Entering a new vertex leaves fewer to enter from there. -/
theorem unmet_visit_lt (closed : g.Closed) (edge : g.Edge u v) (fresh : v ∉ w.visited)
    (enough : g.unmet w.visited < fuel + 1) : g.unmet (w.visit v).visited < fuel :=
  Nat.lt_of_lt_of_le (unmet_cons_lt (mem_vertices_of_edge closed edge) fresh) (Nat.lt_succ_iff.1 enough)

section Meeting

/-- Of the vertices that were entered in between, all admissible successors are entered too. -/
def Walk.Meets (g : Digraph) (admissible : Nat → Bool) (w w' : Walk) : Prop :=
  ∀ x ∈ w'.visited, x ∉ w.visited → ∀ y, g.Edge x y → admissible y = true → y ∈ w'.visited

theorem Walk.Meets.refl (g : Digraph) (admissible : Nat → Bool) (w : Walk) : Meets g admissible w w :=
  fun _ hx new => absurd hx new

theorem Walk.Meets.trans (h : Meets g admissible w w') (h' : Meets g admissible w' w'')
    (visited : w'.visited ⊆ w''.visited) : Meets g admissible w w'' := by
  intro x hx new y edge admitted
  by_cases early : x ∈ w'.visited
  · exact visited (h x early new y edge admitted)
  · exact h' x hx early y edge admitted

theorem cross_meets (closed : g.Closed)
    (sub : ∀ v w, g.unmet w.visited < fuel → Meets g admissible w (g.walk admissible fuel v w) ∧
      ∀ y, g.Edge v y → admissible y = true → y ∈ (g.walk admissible fuel v w).visited)
    (edge : g.Edge u v) (enough : g.unmet w.visited < fuel + 1) :
    Meets g admissible w (g.cross admissible fuel u w v) := by
  rw [cross_eq]
  split
  next =>
    unfold Meets enter
    rw [judged_visited]
    split
    next => exact Meets.refl g admissible w
    next fresh =>
      rw [List.contains_iff_mem] at fresh
      obtain ⟨others, self⟩ := sub v (w.visit v) (unmet_visit_lt closed edge fresh enough)
      intro x hx new
      by_cases same : x = v
      · subst same
        exact self
      · exact others x hx fun old => (List.mem_cons.1 old).elim same new
  next => exact .refl g admissible w

theorem crossAll_meets (closed : g.Closed)
    (sub : ∀ v w, g.unmet w.visited < fuel → Meets g admissible w (g.walk admissible fuel v w) ∧
      ∀ y, g.Edge v y → admissible y = true → y ∈ (g.walk admissible fuel v w).visited)
    {vs : List Nat} (edges : ∀ v ∈ vs, g.Edge u v) (enough : g.unmet w.visited < fuel + 1) :
    Meets g admissible w (vs.foldl (g.cross admissible fuel u) w) ∧
      ∀ v ∈ vs, admissible v = true → v ∈ (vs.foldl (g.cross admissible fuel u) w).visited := by
  induction vs generalizing w with
  | nil => exact ⟨.refl g admissible w, fun _ mem => nomatch mem⟩
  | cons v vs ih =>
    obtain ⟨edge, edges⟩ := List.forall_mem_cons.1 edges
    have first := cross_extends (walk_extends g admissible fuel) edge w
    have rest := crossAll_extends (walk_extends g admissible fuel) edges (g.cross admissible fuel u w v)
    obtain ⟨meets, met⟩ := ih edges (Nat.lt_of_le_of_lt (unmet_antitone first.visited) enough)
    refine ⟨(cross_meets closed sub edge enough).trans meets rest.visited,
      List.forall_mem_cons.2 ⟨fun admitted => rest.visited ?_, met⟩⟩
    rw [cross_eq, if_pos admitted, judged_visited]
    exact mem_enter_visited ..

/-- With enough fuel a walk enters every admissible successor of the vertices that it enters. -/
theorem walk_meets (closed : g.Closed) (enough : g.unmet w.visited < fuel) :
    Meets g admissible w (g.walk admissible fuel u w) ∧
      ∀ y, g.Edge u y → admissible y = true → y ∈ (g.walk admissible fuel u w).visited := by
  induction fuel generalizing u w with
  | zero => cases enough
  | succ fuel ih =>
    rw [walk_succ]
    exact crossAll_meets closed (fun _ _ => ih) (fun _ h => h) enough

end Meeting

section Judging

/-- The vertex is known to lead to the key if it does, and so are its edges that do. -/
def Walk.Done (g : Digraph) (key : Nat) (w : Walk) (x : Nat) : Prop :=
  (g.Reaches x key → x ∈ w.leading) ∧
    ∀ y, g.Edge x y → g.Reaches y key → y ∈ w.visited ∧ w.kept.Edge x y

theorem Walk.Done.mono (h : w.Done g key x) (visited : w.visited ⊆ w'.visited)
    (leading : w.leading ⊆ w'.leading) (kept : ∀ x y, w.kept.Edge x y → w'.kept.Edge x y) :
    w'.Done g key x :=
  ⟨fun path => leading (h.1 path), fun y edge path => (h.2 y edge path).imp (fun met => visited met) (kept x y)⟩

theorem Walk.Extends.done (h : Extends g admissible u w w') (done : w.Done g key x) : w'.Done g key x :=
  done.mono h.visited h.leading h.kept

/-- The walk is done with all vertices behind this one that it has entered. -/
def Walk.DoneBehind (g : Digraph) (key u : Nat) (w : Walk) : Prop :=
  ∀ x ∈ w.visited, g.Precedes u x → w.Done g key x

/-- What a walk from a vertex starts with: fuel for all that is left to enter, leave to enter what leads to
the key, and nothing left open of what was entered before. -/
structure Walk.Ready (g : Digraph) (admissible : Nat → Bool) (key fuel u : Nat) (w : Walk) : Prop where
  enough : g.unmet w.visited < fuel
  sound : w.Sound
  lead : key ∈ w.leading
  pass : ∀ z, g.Precedes u z → g.Reaches z key → admissible z = true
  done : w.DoneBehind g key u

/-- What a walk leaves when it is back at the vertex where it started. -/
structure Walk.Back (g : Digraph) (key u : Nat) (w : Walk) : Prop where
  self : w.Done g key u
  others : w.DoneBehind g key u

theorem Walk.Ready.onward (h : w.Ready g admissible key fuel u) (extended : Extends g admissible u w w')
    (done : w'.DoneBehind g key u) : w'.Ready g admissible key fuel u where
  enough := Nat.lt_of_le_of_lt (unmet_antitone extended.visited) h.enough
  sound := extended.sound h.sound
  lead := extended.leading h.lead
  pass := h.pass
  done := done

/-- In an acyclic graph the vertex that is entered is not behind itself, so nothing behind it is open. -/
theorem Walk.Ready.visit (h : w.Ready g admissible key (fuel + 1) u) (closed : g.Closed)
    (acyclic : g.Acyclic) (edge : g.Edge u v) (fresh : v ∉ w.visited) :
    (w.visit v).Ready g admissible key fuel v where
  enough := unmet_visit_lt closed edge fresh h.enough
  sound := h.sound
  lead := h.lead
  pass := fun z path => h.pass z (.head edge path)
  done := by
    intro x hx path
    rcases List.mem_cons.1 hx with rfl | hx
    · exact absurd path (acyclic x)
    · exact (h.done x hx (.head edge path)).mono (fun _ h => List.mem_cons_of_mem _ h) (fun _ h => h)
        fun _ _ h => h

/-- Before an edge is judged, the walk is done with the vertex at its end. -/
theorem enter_done (closed : g.Closed) (acyclic : g.Acyclic)
    (sub : ∀ v w, w.Ready g admissible key fuel v → (g.walk admissible fuel v w).Back g key v)
    (edge : g.Edge u v) (ready : w.Ready g admissible key (fuel + 1) u) :
    (g.enter admissible fuel v w).DoneBehind g key u := by
  unfold enter
  split
  next => exact ready.done
  next fresh =>
    rw [List.contains_iff_mem] at fresh
    have extended := walk_extends g admissible fuel v (w.visit v)
    have back := sub v _ (ready.visit closed acyclic edge fresh)
    intro x hx path
    rcases extended.entered x hx with old | ⟨-, path⟩
    · rcases List.mem_cons.1 old with rfl | old
      · exact back.self
      · exact extended.done ((ready.done x old path).mono (fun _ h => List.mem_cons_of_mem _ h)
          (fun _ h => h) fun _ _ h => h)
    · exact back.others x hx path

theorem cross_done (closed : g.Closed) (acyclic : g.Acyclic)
    (sub : ∀ v w, w.Ready g admissible key fuel v → (g.walk admissible fuel v w).Back g key v)
    (edge : g.Edge u v) (ready : w.Ready g admissible key (fuel + 1) u) :
    (g.cross admissible fuel u w v).DoneBehind g key u ∧
      (g.Reaches v key → v ∈ (g.cross admissible fuel u w v).visited ∧
        (g.cross admissible fuel u w v).kept.Edge u v) := by
  have entered := enter_done closed acyclic sub edge ready
  have met := mem_enter_visited g admissible fuel v w
  rw [cross_eq]
  split
  next =>
    have judging : Extends g admissible u (g.enter admissible fuel v w)
      (judged u v (g.enter admissible fuel v w)) := .judge_met edge
    refine ⟨fun x hx path => judging.done (entered x (judged_visited .. ▸ hx) path), fun path => ?_⟩
    have leads : v ∈ (g.enter admissible fuel v w).leading := (entered v met (.single edge)).1 path
    rw [judged_visited, judged, if_pos (List.contains_iff_mem.2 leads)]
    exact ⟨met, keep_edge.2 (.inr ⟨rfl, rfl⟩)⟩
  next barred => exact ⟨ready.done, fun path => absurd (ready.pass v (.single edge) path) barred⟩

theorem crossAll_done (closed : g.Closed) (acyclic : g.Acyclic)
    (sub : ∀ v w, w.Ready g admissible key fuel v → (g.walk admissible fuel v w).Back g key v)
    {vs : List Nat} (edges : ∀ v ∈ vs, g.Edge u v) (ready : w.Ready g admissible key (fuel + 1) u) :
    (vs.foldl (g.cross admissible fuel u) w).DoneBehind g key u ∧
      ∀ v ∈ vs, g.Reaches v key → v ∈ (vs.foldl (g.cross admissible fuel u) w).visited ∧
        (vs.foldl (g.cross admissible fuel u) w).kept.Edge u v := by
  induction vs generalizing w with
  | nil => exact ⟨ready.done, fun _ mem => nomatch mem⟩
  | cons v vs ih =>
    obtain ⟨edge, edges⟩ := List.forall_mem_cons.1 edges
    have first := cross_extends (walk_extends g admissible fuel) edge w
    have rest := crossAll_extends (walk_extends g admissible fuel) edges (g.cross admissible fuel u w v)
    obtain ⟨done, step⟩ := cross_done closed acyclic sub edge ready
    obtain ⟨others, steps⟩ := ih edges (ready.onward first done)
    refine ⟨others, List.forall_mem_cons.2 ⟨fun path => ?_, steps⟩⟩
    exact (step path).imp (fun met => rest.visited met) (rest.kept u v)

/-- In an acyclic graph a walk is done with all that it has entered once it is back. -/
theorem walk_done (closed : g.Closed) (acyclic : g.Acyclic) (ready : w.Ready g admissible key fuel u) :
    (g.walk admissible fuel u w).Back g key u := by
  induction fuel generalizing u w with
  | zero => cases ready.enough
  | succ fuel ih =>
    have extended := walk_extends g admissible (fuel + 1) u w
    rw [walk_succ] at extended ⊢
    obtain ⟨others, steps⟩ := crossAll_done closed acyclic (fun _ _ => ih) (fun _ h => h) ready
    refine ⟨⟨fun path => ?_, steps⟩, others⟩
    -- The vertex leads to the key if it is the key, or if the first edge on the way was kept.
    rcases Relation.ReflTransGen.cases_head path with rfl | ⟨z, edge, path⟩
    · exact extended.leading ready.lead
    · obtain ⟨-, step⟩ := steps z edge path
      rcases extended.edges u z step with old | new
      · exact extended.leading (ready.sound u z old)
      · exact new.2.2.1

end Judging
end SinkReach.Digraph
