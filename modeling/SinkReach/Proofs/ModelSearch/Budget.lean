import SinkReach.Proofs.ModelSearch.Sat

/-!
What the budget of the search decides. Two runs of one search under different budgets make the same
assignments until the smaller budget is used up, so a greater budget turns an unknown answer into another
one and changes no other answer. A search over domains of at most 256 values needs no more assignments
than its tree of values has nodes.
-/
namespace SinkReach.ModelSearch

/-- The outcome of the same run with more budget to begin with. -/
def Outcome.withMore (extra : Nat) : Outcome → Outcome
  | .found model => .found model
  | .exhausted budget => .exhausted (budget + extra)
  | .aborted => .aborted

/-- A run that does not use up its budget takes the same course under a greater one. -/
def Steady (run : Assignment → Nat → Outcome) : Prop :=
  ∀ env budget extra, run env budget ≠ .aborted →
    run env (budget + extra) = (run env budget).withMore extra

theorem Steady.tryValues {level : Level} {next : Assignment → Nat → Outcome} (steady : Steady next)
    (vs : List Value) : Steady fun env => tryValues level next env vs := by
  intro env budget extra ends
  induction vs generalizing budget with
  | nil => rfl
  | cons v vs ih =>
    cases budget with
    | zero => exact absurd rfl ends
    | succ budget =>
      rw [Nat.add_right_comm]
      simp only [ModelSearch.tryValues] at ends ⊢
      split
      next checked =>
        rw [if_pos checked] at ends
        -- The first value leads to a run of the search below, which goes the same way by assumption.
        cases below : next (env.insert level.domain.name v) budget with
        | found model =>
          rw [steady _ _ _ (by simp [below]), below]
          rfl
        | exhausted rest =>
          rw [below] at ends
          rw [steady _ _ _ (by simp [below]), below]
          exact ih rest ends
        | aborted =>
          rw [below] at ends
          exact absurd rfl ends
      next unchecked =>
        rw [if_neg unchecked] at ends
        exact ih budget ends

theorem search_steady (ls : List Level) : Steady (search ls) := by
  induction ls with
  | nil => exact fun _ _ _ _ => rfl
  | cons level ls ih => exact ih.tryValues level.domain.values

theorem decideOpen_more {budget extra : Nat} {vars : Table String TermSort} {conjuncts : List Term}
    (known : decideOpen budget vars conjuncts ≠ .unknown) :
    decideOpen (budget + extra) vars conjuncts = decideOpen budget vars conjuncts := by
  unfold decideOpen at known ⊢
  dsimp only at known ⊢
  split
  next => rfl
  next consistent =>
    rw [if_neg consistent] at known
    split
    next => rfl
    next nonempty =>
      rw [if_neg nonempty] at known
      generalize levels _ conjuncts = ls at known ⊢
      have more := search_steady ls {} budget extra
      cases run : search ls {} budget with
      | found | exhausted =>
        rw [more (by simp [run]), run]
        rfl
      | aborted =>
        rw [run] at known
        exact absurd rfl known

/-- A greater budget keeps every answer but an unknown one, the models that are found included. -/
theorem check_more_budget (constraints : List Term) {budget budget' : Nat} (le : budget ≤ budget') :
    (∀ model, check budget constraints = .sat model → check budget' constraints = .sat model) ∧
      (check budget constraints = .unsat → check budget' constraints = .unsat) ∧
      (check budget' constraints ≠ check budget constraints → check budget constraints = .unknown) := by
  have kept : check budget constraints ≠ .unknown →
      check budget' constraints = check budget constraints := by
    intro known
    obtain ⟨extra, rfl⟩ := Nat.exists_eq_add_of_le le
    unfold check at known ⊢
    dsimp only at known ⊢
    split
    next => rfl
    next literal =>
      rw [if_neg literal] at known
      split
      next => rfl
      next constants =>
        rw [if_neg constants] at known
        exact decideOpen_more known
  refine ⟨fun model h => ?_, fun h => ?_, fun changed => ?_⟩
  · rw [kept (by simp [h]), h]
  · rw [kept (by simp [h]), h]
  · by_contra known
    exact changed (kept known)

theorem check_more_budget_twoLevels :
    check 2 twoLevels = .unknown ∧ 3 ≤ 10 ∧
      check 10 twoLevels = .sat ⟨[("b", .bool false), ("c", .bool true)]⟩ := by
  have short : check 2 twoLevels = .unknown := by cbv
  have enough : check 3 twoLevels = .sat ⟨[("b", .bool false), ("c", .bool true)]⟩ := by cbv
  exact ⟨short, by decide, (check_more_budget twoLevels (by decide : 3 ≤ 10)).1 _ enough⟩

/-- Whether a run with a budget for the given number of assignments always ends by itself, and how much of
the budget it leaves. -/
def EndsWithin (run : Assignment → Nat → Outcome) (cost : Nat) : Prop :=
  ∀ env budget, cost ≤ budget → (∃ model, run env budget = .found model) ∨
    ∃ rest, run env budget = .exhausted rest ∧ budget ≤ rest + cost

theorem EndsWithin.tryValues {level : Level} {next : Assignment → Nat → Outcome} {cost : Nat}
    (ends : EndsWithin next cost) (vs : List Value) :
    EndsWithin (fun env => tryValues level next env vs) (vs.length * (cost + 1)) := by
  intro env budget enough
  induction vs generalizing budget with
  | nil => exact .inr ⟨budget, rfl, Nat.le_add_right ..⟩
  | cons v vs ih =>
    rw [List.length_cons, Nat.succ_mul] at enough ⊢
    obtain ⟨budget, rfl⟩ : ∃ b, budget = b + 1 := ⟨budget - 1, by omega⟩
    simp only [ModelSearch.tryValues]
    split
    next =>
      rcases ends (env.insert level.domain.name v) budget (by omega) with ⟨model, found⟩ | ⟨rest, failed, left⟩
      · rw [found]
        exact .inl ⟨model, rfl⟩
      · rw [failed]
        refine (ih rest (by omega)).imp_right ?_
        rintro ⟨rest', failed', left'⟩
        exact ⟨rest', failed', by omega⟩
    next =>
      refine (ih budget (by omega)).imp_right ?_
      rintro ⟨rest', failed', left'⟩
      exact ⟨rest', failed', by omega⟩

/-- Number of assignments of a search that goes through all values of all levels. -/
def treeSize : List Level → Nat
  | [] => 0
  | level :: levels => level.domain.values.length * (treeSize levels + 1)

theorem search_endsWithin (ls : List Level) : EndsWithin (search ls) (treeSize ls) := by
  induction ls with
  | nil => exact fun env _ _ => .inl ⟨env, rfl⟩
  | cons level ls ih => exact ih.tryValues level.domain.values

/-- Levels of at most `m` values have at most `m + m ^ 2 + ...` nodes, with one summand for each level. -/
theorem treeSize_le {m : Nat} {ls : List Level} (few : ∀ level ∈ ls, level.domain.values.length ≤ m) :
    treeSize ls ≤ ∑ i ∈ Finset.range ls.length, m ^ (i + 1) := by
  induction ls with
  | nil => exact Nat.le_refl _
  | cons level ls ih =>
    obtain ⟨first, rest⟩ := List.forall_mem_cons.1 few
    calc treeSize (level :: ls)
        ≤ m * (∑ i ∈ Finset.range ls.length, m ^ (i + 1) + 1) :=
          Nat.mul_le_mul first (Nat.succ_le_succ (ih rest))
      _ = ∑ i ∈ Finset.range (ls.length + 1), m ^ (i + 1) := by
          rw [Finset.sum_range_succ', Nat.mul_add, Finset.mul_sum, zero_add, pow_one, mul_one]
          simp only [pow_succ' m (_ + 1)]

end SinkReach.ModelSearch
