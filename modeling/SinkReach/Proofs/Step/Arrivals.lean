import SinkReach.Proofs.Step.Merge

/-!
Paths of states that were merged from several arrivals at a node. Merging paths is a meet, so the path of the
state that results says nothing about the order in which the others came.
-/
namespace SinkReach

namespace ExecState

variable {x r : ExecState} {xs : List ExecState} {o : Overflow} {c c' : Context}

/-- The path of a state into which others were merged one after the other is the merge of their paths. -/
theorem mergeAll?_of_arrivals (h : (xs.foldlM (merge · · o) x).run.run c = (.ok r, c')) :
    Path.mergeAll? ((x :: xs).map path) = some r.path := by
  induction xs generalizing x c with
  | nil =>
    obtain ⟨rfl, -⟩ := run_pure_ok.1 h
    rfl
  | cons y ys ih =>
    rw [List.foldlM_cons] at h
    obtain ⟨s, c₁, first, rest⟩ := run_bind_ok.1 h
    obtain ⟨paths, -⟩ := merge_history first
    rw [List.map_cons, List.map_cons, Path.mergeAll?, List.foldlM_cons, paths]
    exact ih rest

/-- States at different nodes are not merged. -/
theorem merge_of_ne {y : ExecState} (apart : x.node ≠ y.node) :
    (x.merge y o).run.run c = (.error (.differentEnds x.node y.node), c) := by
  unfold merge
  rw [Path.merge?_eq_none_iff.2 apart]
  rfl

end ExecState

/-- Merging paths with the same end is a meet: of a path with itself it is the path, and it commutes and
associates. The merged path is the longest common start, followed by the end unless it ends there already, and
all before its end is a start of both paths. Paths with different ends are not merged, and neither are states
at different nodes; any number of paths with the same end have a merge, which is the same in every order, and so
is the path of the state merged from any number of arrivals. -/
theorem Path.merge_semilattice :
    (∀ p : Path, p.merge? p = some p) ∧ (∀ p q : Path, p.merge? q = q.merge? p) ∧
    (∀ p q r : Path, (p.merge? q).bind (·.merge? r) = (q.merge? r).bind p.merge?) ∧
    (∀ p q r : Path, p.merge? q = some r ↔ p.IsMeet q r) ∧
    (∀ p q r : Path, p.merge? q = some r →
      r.last = p.last ∧ r.before.reverse <+: p.toList ∧ r.before.reverse <+: q.toList) ∧
    (∀ p q : Path, p.merge? q = none ↔ p.last ≠ q.last) ∧
    (∀ (x y : ExecState) (o : Overflow) (c : Context), x.node ≠ y.node →
      (x.merge y o).run.run c = (.error (.differentEnds x.node y.node), c)) ∧
    (∀ (p : Path) (ps : List Path), (∀ q ∈ ps, p.last = q.last) → ∃ r, mergeAll? (p :: ps) = some r) ∧
    (∀ ps qs : List Path, ps.Perm qs → mergeAll? ps = mergeAll? qs) ∧
    ∀ (x y : ExecState) (xs ys : List ExecState), (x :: xs).Perm (y :: ys) →
      ∀ (o : Overflow) (c c' d d' : Context) (r s : ExecState),
        (xs.foldlM (ExecState.merge · · o) x).run.run c = (.ok r, c') →
          (ys.foldlM (ExecState.merge · · o) y).run.run d = (.ok s, d') → r.path = s.path := by
  refine ⟨merge?_self, merge?_comm, merge?_assoc, fun _ _ _ => merge?_iff, ?_, fun _ _ => merge?_eq_none_iff,
    fun _ _ _ _ => ExecState.merge_of_ne, ?_, fun _ _ => mergeAll?_perm, ?_⟩
  · intro p q r h
    have start {p q r : Path} (h : p.merge? q = some r) : r.before.reverse <+: p.toList :=
      (merge?_before h).trans (List.prefix_append ..)
    exact ⟨(merge?_last h).1, start h, start (merge?_comm p q ▸ h)⟩
  · intro p ps same
    obtain ⟨r, merged, -⟩ := exists_mergeAll? p ps same
    exact ⟨r, merged⟩
  · intro x y xs ys perm o c c' d d' r s left right
    have paths : some r.path = some s.path := by
      rw [← ExecState.mergeAll?_of_arrivals left, ← ExecState.mergeAll?_of_arrivals right]
      exact mergeAll?_perm (perm.map ExecState.path)
    exact Option.some.inj paths

end SinkReach
