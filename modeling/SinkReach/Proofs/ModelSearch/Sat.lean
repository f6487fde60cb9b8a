import Mathlib
import SinkReach.ModelSearch.Search
import SinkReach.Proofs.Term.Memory
import SinkReach.Proofs.Term.Traversal

/-!
Models that the decision procedure returns satisfy the constraints. Each conjunct is checked at the
level of its last constant, and the levels below bind none of its constants, so it stays true under the
assignment that the search ends with.
-/
namespace SinkReach.ModelSearch

open Term

mutual

theorem holds_openConjunction (env : Assignment) : (t : Term) → (others : List Term) →
    ((∀ u ∈ openConjunction t others, u.Holds env) ↔ t.Holds env ∧ ∀ u ∈ others, u.Holds env)
  | .junction _ .and items, others => by
    rw [openConjunction, holds_openConjunctions env items others, holds_and]
  | .junction _ .or _, _ | .leaf _ _, _ | .unary _ _ _, _ | .binary _ _ _ _, _
  | .ternary _ _ _ _ _, _ => by
    rw [openConjunction, List.forall_mem_cons]
    all_goals simp

/-- Opening conjunctions keeps what the constraints say. -/
theorem holds_openConjunctions (env : Assignment) : (ts : List Term) → (others : List Term) →
    ((∀ u ∈ openConjunctions ts others, u.Holds env) ↔
      (∀ t ∈ ts, t.Holds env) ∧ ∀ u ∈ others, u.Holds env)
  | [], others => by simp [openConjunctions]
  | t :: ts, others => by
    rw [openConjunctions, holds_openConjunction env t, holds_openConjunctions env ts others,
      List.forall_mem_cons, and_assoc]

end

theorem bool?_eq_some {t : Term} {b : Bool} (h : t.bool? = some b) : ∃ l, t = .leaf l (.bool b) := by
  unfold Term.bool? at h
  split at h
  next l b' => exact ⟨l, by rw [Option.some.inj h]⟩
  next => cases h

theorem allTrue_iff {env : Assignment} {ts : List Term} {memory : Memory}
    (sound : memory.Sound env) : allTrue env ts memory = true ↔ ∀ t ∈ ts, t.Holds env := by
  induction ts generalizing memory with
  | nil => simp [allTrue]
  | cons t ts ih =>
    obtain ⟨memory', sound', run⟩ := answers_recallBool env t memory sound
    rw [allTrue, run, List.forall_mem_cons, ← ih sound', holds_iff_evalBool]
    rcases t.evalBool env with _ | (_ | _) <;> simp

theorem decideClosed_model {ts : List Term} {memory : Memory} {model : Assignment}
    (h : decideClosed ts memory = .sat model) : model = {} := by
  induction ts generalizing memory with
  | nil =>
    cases h
    rfl
  | cons t ts ih =>
    rw [decideClosed] at h
    split at h
    · exact ih h
    · cases h
    · cases h

theorem decideClosed_sat {ts : List Term} {memory : Memory} (sound : memory.Sound {})
    {model : Assignment} (h : decideClosed ts memory = .sat model) :
    ∀ t ∈ ts, t.Holds model := by
  induction ts generalizing memory with
  | nil => simp
  | cons t ts ih =>
    obtain ⟨memory', sound', run⟩ := answers_recallBool {} t memory sound
    rw [decideClosed, run] at h
    rcases value : t.evalBool {} with _ | (_ | _) <;> rw [value] at h
    · cases h
    · cases h
    · have empty : model = {} := decideClosed_model h
      refine List.forall_mem_cons.2 ⟨?_, ih sound' h⟩
      rw [empty]
      exact holds_iff_evalBool.2 value

/-- A search that tries values finds a model only behind a value under which the checks are true. -/
theorem tryValues_found {level : Level} {next : Assignment → Nat → Outcome} {env : Assignment}
    {vs : List Value} {budget : Nat} {model : Assignment}
    (h : tryValues level next env vs budget = .found model) :
    ∃ v ∈ vs, ∃ budget', (∀ t ∈ level.checks, t.Holds (env.insert level.domain.name v)) ∧
      next (env.insert level.domain.name v) budget' = .found model := by
  induction vs generalizing budget with
  | nil => simp [tryValues] at h
  | cons v vs ih =>
    cases budget with
    | zero => simp [tryValues] at h
    | succ budget =>
      simp only [tryValues] at h
      split at h
      next checked =>
        have holds := (allTrue_iff (Memory.sound_empty _)).1 checked
        split at h
        next found =>
          cases h
          exact ⟨v, List.mem_cons_self, budget, holds, found⟩
        next =>
          obtain ⟨w, hw, rest⟩ := ih h
          exact ⟨w, List.mem_cons_of_mem _ hw, rest⟩
        next => cases h
      next =>
        obtain ⟨w, hw, rest⟩ := ih h
        exact ⟨w, List.mem_cons_of_mem _ hw, rest⟩

/-- The search binds the constants of its levels and no others. -/
theorem search_frame {ls : List Level} {env : Assignment} {budget : Nat} {model : Assignment}
    (h : search ls env budget = .found model) {name : String}
    (outside : name ∉ ls.map (·.domain.name)) : model.get? name = env.get? name := by
  induction ls generalizing env budget with
  | nil =>
    cases h
    rfl
  | cons level ls ih =>
    obtain ⟨v, -, budget', -, found⟩ := tryValues_found h
    simp only [List.map_cons, List.mem_cons, not_or] at outside
    rw [ih found outside.2, Table.get?_insert_ne env v (Ne.symm outside.1)]

/-- The checks of a level are true under the model if they mention no constant of a later level. -/
theorem search_checks {ls : List Level} {env : Assignment} {budget : Nat} {model : Assignment}
    (h : search ls env budget = .found model) {i : Nat} {level : Level} (hi : ls[i]? = some level)
    {t : Term} (ht : t ∈ level.checks)
    (early : ∀ x ∈ t.vars, x.1 ∉ (ls.drop (i + 1)).map (·.domain.name)) : t.Holds model := by
  induction ls generalizing env budget i with
  | nil => simp at hi
  | cons first ls ih =>
    obtain ⟨v, -, budget', holds, found⟩ := tryValues_found h
    cases i with
    | zero =>
      cases hi
      exact (holds t ht).congr fun x hx => (search_frame found (early x hx)).symm
    | succ i => exact ih found hi early

theorem le_getLastD {ns : List Nat} (ascending : ns.Pairwise (· < ·)) {n : Nat} (h : n ∈ ns) (d : Nat) :
    n ≤ ns.getLastD d := by
  induction ns generalizing n d with
  | nil => cases h
  | cons m ns ih =>
    obtain ⟨below, rest⟩ := List.pairwise_cons.1 ascending
    rw [List.getLastD_cons]
    cases h with
    | tail _ h => exact ih rest h m
    | head =>
      cases ns with
      | nil => exact Nat.le_refl _
      | cons k ns =>
        have first := below k List.mem_cons_self
        exact Nat.le_trans (Nat.le_of_lt first) (ih rest List.mem_cons_self m)

/-- Positions of the names that pass a test. -/
def positions (names : List String) (test : String → Bool) : List Nat :=
  (names.zipIdx.filter fun (name, _) => test name).map (·.2)

theorem mem_positions {names : List String} {test : String → Bool} {i : Nat} :
    i ∈ positions names test ↔ ∃ name, names[i]? = some name ∧ test name = true := by
  simp only [positions, List.mem_map, List.mem_filter, Prod.exists]
  constructor
  · rintro ⟨name, j, ⟨hj, ht⟩, rfl⟩
    exact ⟨name, by simpa using List.mem_zipIdx_iff_getElem?.1 hj, ht⟩
  · rintro ⟨name, hi, ht⟩
    exact ⟨name, i, ⟨List.mem_zipIdx_iff_getElem?.2 (by simpa using hi), ht⟩, rfl⟩

theorem positions_ascending (names : List String) (test : String → Bool) :
    (positions names test).Pairwise (· < ·) := by
  have all : (names.zipIdx.map (·.2)).Pairwise (· < ·) := by
    rw [List.zipIdx_map_snd]
    exact List.pairwise_lt_range'
  exact all.sublist (List.filter_sublist.map _)

theorem lastPosition_eq (names : List String) (t : Term) :
    lastPosition names t = (positions names (Term.freeVars [t]).contains).getLastD 0 := rfl

theorem lastPosition_lt {names : List String} (h : names ≠ []) (t : Term) :
    lastPosition names t < names.length := by
  have positive : 0 < names.length := List.length_pos_iff.2 h
  rw [lastPosition_eq, List.getLastD_eq_getLast?]
  cases last : (positions names (Term.freeVars [t]).contains).getLast? with
  | none => exact positive
  | some i =>
    obtain ⟨name, hi, -⟩ := mem_positions.1 (List.mem_of_getLast? last)
    exact (List.getElem?_eq_some_iff.1 hi).1

/-- No constant of a conjunct stands behind its last position. -/
theorem le_lastPosition {names : List String} {t : Term} {i : Nat} {x : String × TermSort}
    (hi : names[i]? = some x.1) (hx : x ∈ t.vars) : i ≤ lastPosition names t := by
  rw [lastPosition_eq]
  obtain ⟨s, hs⟩ := freeVars_of_mem_varsAll (mem_varsAll.2 ⟨t, List.mem_singleton.2 rfl, hx⟩)
  refine le_getLastD (positions_ascending ..) (mem_positions.2 ⟨x.1, hi, ?_⟩) 0
  rw [Table.contains, hs]
  rfl

theorem getElem?_levels (domains : List Domain) (conjuncts : List Term) (i : Nat) :
    (levels domains conjuncts)[i]? = domains[i]?.map fun d =>
      ⟨d, conjuncts.filter fun t => lastPosition (domains.map (·.name)) t == i⟩ := by
  simp only [levels, List.getElem?_map, List.getElem?_zipIdx, List.filter_map, List.map_map,
    Nat.zero_add, Option.map_map]
  congr 1
  funext d
  simp [Function.comp_def]

theorem levels_names (domains : List Domain) (conjuncts : List Term) :
    (levels domains conjuncts).map (·.domain.name) = domains.map (·.name) := by
  apply List.ext_getElem?
  intro i
  rw [List.getElem?_map, getElem?_levels, List.getElem?_map, Option.map_map]
  rfl

/-- Each conjunct is true under the model that the search over its levels ends with. -/
theorem search_levels {domains : List Domain} (nonempty : domains ≠ []) {conjuncts : List Term}
    {env : Assignment} {budget : Nat} {model : Assignment}
    (h : search (levels domains conjuncts) env budget = .found model) :
    ∀ t ∈ conjuncts, t.Holds model := by
  intro t ht
  have some_name : domains.map (·.name) ≠ [] := by simpa using nonempty
  have bound := lastPosition_lt some_name t
  rw [List.length_map] at bound
  have level := getElem?_levels domains conjuncts (lastPosition (domains.map (·.name)) t)
  rw [List.getElem?_eq_getElem bound] at level
  refine search_checks h level (List.mem_filter.2 ⟨ht, by simp⟩) ?_
  intro x hx late
  rw [List.map_drop, levels_names] at late
  obtain ⟨j, hj⟩ := List.mem_iff_getElem?.1 late
  rw [List.getElem?_drop] at hj
  have := le_lastPosition hj hx
  omega

theorem Domain.ofFacts_name (f : Facts) (ls : Literals) (name : String) (sort : TermSort) :
    (Domain.ofFacts f ls name sort).name = name := by
  unfold Domain.ofFacts
  split <;> rfl

theorem decideOpen_sat {budget : Nat} {vars : Table String TermSort} {conjuncts : List Term}
    (nonempty : vars.entries ≠ []) {model : Assignment}
    (h : decideOpen budget vars conjuncts = .sat model) : ∀ t ∈ conjuncts, t.Holds model := by
  simp only [decideOpen] at h
  split at h
  · cases h
  · split at h
    · split at h <;> cases h
    · split at h
      next found =>
        cases h
        exact search_levels (by simpa using nonempty) found
      next => split at h <;> cases h
      next => cases h

/-- Every constraint is true under a model that is returned for the constraints. -/
theorem holds_of_check_sat {budget : Nat} {constraints : List Term} {model : Assignment}
    (h : check budget constraints = .sat model) : ∀ c ∈ constraints, c.Holds model := by
  simp only [check] at h
  split at h
  · cases h
  · have kept : ∀ t ∈ (openConjunctions constraints []).filter fun t => !(t.bool? == some true),
        t.Holds model := by
      split at h
      next => exact decideClosed_sat (Memory.sound_empty {}) h
      next some_var => exact decideOpen_sat (by simpa using some_var) h
    refine ((holds_openConjunctions model constraints []).1 fun t ht => ?_).1
    by_cases dropped : t.bool? = some true
    · obtain ⟨l, rfl⟩ := bool?_eq_some dropped
      exact (value?_leaf model l _).trans rfl
    · exact kept t (List.mem_filter.2 ⟨ht, by simpa using dropped⟩)

/-- An answer that constraints have a model is right: every one of them, as it was given, evaluates to
true under the model, whatever the budget. -/
theorem check_sat_sound (budget : Nat) (constraints : List Term) (model : Assignment)
    (h : check budget constraints = .sat model) :
    ∀ c ∈ constraints, c.evalShared model = .ok (.bool true) := by
  intro c hc
  rw [evalShared_eq_eval]
  exact holds_iff_eval.1 (holds_of_check_sat h c hc)

/-- A conjunction with a literal in it, and a disjunction over the constants of two levels. -/
def twoLevels : List Term :=
  let b := .leaf 0 (.var "b" .bool)
  let c := .leaf 1 (.var "c" .bool)
  [.junction 2 .and [.leaf 3 (.bool true), .unary 4 .not b], .junction 5 .or [b, c]]

theorem check_sat_sound_twoLevels :
    check 10 twoLevels = .sat ⟨[("b", .bool false), ("c", .bool true)]⟩ ∧
      ∀ c ∈ twoLevels, c.evalShared ⟨[("b", .bool false), ("c", .bool true)]⟩ = .ok (.bool true) := by
  have answer : check 10 twoLevels = .sat ⟨[("b", .bool false), ("c", .bool true)]⟩ := by cbv
  exact ⟨answer, check_sat_sound 10 twoLevels _ answer⟩

end SinkReach.ModelSearch
