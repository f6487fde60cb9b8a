import SinkReach.Proofs.Analysis.CallFrames
import SinkReach.Proofs.Step.Advance

/-!
Where the states of a search come from. Every state that is held is the initial one, follows from a state
that was expanded, or is a merge of two that were held. So what the initial state has and both ways of making
states keep is had by all of them, and whatever grows along both ways grows along a whole lineage.
-/
namespace SinkReach.Snapshot

open Relation (ReflTransGen)

variable {t : Task} {m : Method} {p p' : Snapshot} {x y f u : ExecState}

/-- What is expanded is performed on the world of the search. -/
theorem Expands.next (h : Expands t p p' x f) :
    ∃ w, (x.next t.query t.limit).run.run p.search.world = (.ok p'.pending, w) := by
  obtain ⟨moves, here, mem⟩ := h
  cases moves with
  | receive pending => simp only [expanding?, pending] at here; cases here
  | skip pending pop processed => simp only [expanding?, pending, pop, processed, if_true] at here; cases here
  | expand pending pop fresh data asked next =>
    simp only [expanding?, pending, pop, fresh, data, Bool.false_eq_true, if_false] at here
    cases here
    exact ⟨_, next⟩

/-- What a step in the search adds. -/
theorem Expands.advances (h : Expands t p p' x f) :
    ∃ b i, t.query.body x.node.method = .ok b ∧ b.instruction? x.node.instr = some i ∧
      ExecState.Advances t.query.program t.limit i.objects x f := by
  obtain ⟨w, next⟩ := h.next
  obtain ⟨b, i, body, found, advances⟩ := ExecState.next_advances next
  exact ⟨b, i, body, found, advances f h.mem⟩

/-- A state that is held was held before, is a merge of two that were, or follows from the one expanded. -/
theorem Moves.holds (h : Moves t p p') (held : p'.Holds u) :
    p.Holds u ∨ (∃ x y c c', p.Holds x ∧ p.Holds y ∧ (x.merge y t.overflow).run.run c = (.ok u, c')) ∨
      ∃ x, Expands t p p' x u := by
  cases h.change with
  | settles _ _ _ _ holds => exact (holds u held).imp_right .inl
  | expands here _ _ _ _ _ holds =>
    rcases holds u held with old | mem
    · exact .inl old
    · exact .inr (.inr ⟨_, h, here, mem⟩)

/-- What the initial state has, and every step and every merge keeps, all states of a search have. -/
theorem IsMoment.each {J : ExecState → Prop} (moment : p.IsMoment t m)
    (initial : J (.initial ⟨0, m, Body.entry⟩))
    (follows : ∀ {p p' x f}, Expands t p p' x f → J x → J f)
    (merges : ∀ {x y r c c'}, (x.merge y t.overflow).run.run c = (.ok r, c') → J x → J y → J r) :
    ∀ x, p.Holds x → J x := by
  refine moment.invariant (I := fun p => ∀ x, p.Holds x → J x) (fun s started x held => ?_) ?_
  · rcases held with mem | ⟨n, data⟩
    · cases mem
    · obtain ⟨-, rfl⟩ := (Search.start_kept started).2 n x data
      exact initial
  · intro p p' had moves u held
    rcases moves.holds held with old | ⟨x, y, c, c', hx, hy, merge⟩ | ⟨x, expands⟩
    · exact had u old
    · exact merges merge (had x hx) (had y hy)
    · exact follows expands (had x (holds_expanding expands.here))

/-- A state comes from another one directly, by a step of the search or by a merge. -/
inductive Begets (t : Task) (m : Method) : ExecState → ExecState → Prop
  | follows {p p' : Snapshot} {x f : ExecState} : p.IsMoment t m → Expands t p p' x f → Begets t m x f
  | left {p : Snapshot} {x y r : ExecState} {c c' : Context} : p.IsMoment t m → p.Holds x → p.Holds y →
    (x.merge y t.overflow).run.run c = (.ok r, c') → Begets t m x r
  | right {p : Snapshot} {x y r : ExecState} {c c' : Context} : p.IsMoment t m → p.Holds x → p.Holds y →
    (x.merge y t.overflow).run.run c = (.ok r, c') → Begets t m y r

/-- A state that is received goes into the one kept at its node. -/
theorem Moves.received {xs : List ExecState} (moment : p.IsMoment t m) (pending : p.pending = x :: xs)
    (moves : Moves t p p') : ∃ r, p'.calls.data? x.node = some r ∧ ReflTransGen (Begets t m) x r := by
  cases moves with
  | receive pending' received =>
    cases pending.symm.trans pending'
    obtain ⟨stored, c, calls, how, kept, world, -, -⟩ := Searching.receive_ok received
    refine ⟨stored, ?_, ?_⟩
    · rw [Snapshot.calls, world, Instances.data?_keep kept, if_pos ⟨rfl, rfl⟩]
    · cases how with
      | first => exact .refl
      | merged found merge =>
        exact .single (.right moment (.inr ⟨_, found⟩) (.inl (pending ▸ List.mem_cons_self)) merge)
  | skip pending' => cases pending.symm.trans pending'
  | expand pending' => cases pending.symm.trans pending'

end SinkReach.Snapshot
