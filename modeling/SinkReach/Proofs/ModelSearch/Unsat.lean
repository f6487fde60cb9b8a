import SinkReach.Proofs.ModelSearch.Sat
import SinkReach.Proofs.ModelSearch.Undecided

/-!
Constraints that the decision procedure refutes have no model. The facts hold in every model, a complete
domain lists the value that a model gives its constant, and so a search over complete domains comes past
the model itself, up to sameness of values.
-/
namespace SinkReach.ModelSearch

open Term

theorem mem_span {lo hi n : Int} (low : lo ≤ n) (high : n ≤ hi) : n ∈ span lo hi := by
  refine List.mem_map.2 ⟨(n - lo).toNat, List.mem_range.2 (by omega), by omega⟩

theorem bitsCandidates_cover {bits w : Nat} (width : w ≤ 64) (lt : bits < 2 ^ w) {lo hi : Int}
    (low : lo ≤ Bits.toInt bits w) (high : Bits.toInt bits w ≤ hi) {ls : Literals}
    (complete : (bitsCandidates w lo hi ls).2 = true) :
    .bitVec bits w ∈ (bitsCandidates w lo hi ls).1 := by
  unfold bitsCandidates at complete ⊢
  split
  next =>
    refine List.mem_map.2 ⟨Bits.toInt bits w, mem_span low high, ?_⟩
    rw [Value.ofInt, Bits.ofInt_toInt width lt]
  next wide => simp [wide] at complete

/-- The interval that candidates are taken from contains the value of a model. -/
theorem Facts.Sound.within {f : Facts} {env : Assignment} (sound : f.Sound env) {name : String}
    {bits w : Nat} (bound : env.get? name = some (.bitVec bits w)) (lt : bits < 2 ^ w) (low : 1 ≤ w)
    (high : w ≤ 64) :
    ((f.intervals.get? name).getD (signedRange w)).1 ≤ Bits.toInt bits w ∧
      Bits.toInt bits w ≤ ((f.intervals.get? name).getD (signedRange w)).2 := by
  cases known : f.intervals.get? name with
  | none => exact Bits.toInt_mem_signedRange low high lt
  | some interval =>
    obtain ⟨bits', w', bound', bounds⟩ := sound.intervals _ (Table.mem_of_get? known)
    cases bound.symm.trans bound'
    exact bounds

/-- Candidates that are said to be all are. -/
theorem candidates_cover {f : Facts} {env : Assignment} (sound : f.Sound env) {name : String}
    {sort : TermSort} {v : Value} (bound : env.get? name = some v) (hs : v.hasSort sort = true)
    (supported : sort.supported = true) {ls : Literals}
    (complete : (candidates f ls name sort).2 = true) : v ∈ (candidates f ls name sort).1 := by
  cases sort with
  | bool =>
    cases v with
    | bool b => cases b <;> simp [candidates]
    | bitVec | float | array => simp [Value.hasSort] at hs
  | bitVec w =>
    obtain ⟨bits, rfl, lt⟩ := Value.bitVec_of_hasSort hs
    simp only [TermSort.supported, decide_eq_true_eq] at supported
    have within := sound.within bound lt supported.1 supported.2
    exact bitsCandidates_cover supported.2 lt within.1 within.2 complete
  | float | array => cases complete

/-- A complete domain lists the value that a model gives its constant. -/
theorem Domain.ofFacts_cover {f : Facts} {env : Assignment} (sound : f.Sound env) {name : String}
    {sort : TermSort} (bound : sort.valued = true → ∃ v, env.get? name = some v ∧ v.hasSort sort = true)
    (supported : sort.supported = true) {ls : Literals}
    (complete : (Domain.ofFacts f ls name sort).complete = true) :
    ∃ v, env.get? name = some v ∧ ∃ w ∈ (Domain.ofFacts f ls name sort).values, v.Alike w := by
  unfold Domain.ofFacts at complete ⊢
  split at complete
  next w pinned =>
    obtain ⟨v, bound', alike⟩ := sound.pins _ (Table.mem_of_get? pinned)
    exact ⟨v, bound', w, by simp, alike⟩
  next free =>
    have valued : sort.valued = true := by
      cases sort with
      | bool => rfl
      | bitVec => exact supported
      | float | array => cases complete
    obtain ⟨v, bound, hs⟩ := bound valued
    have listed := candidates_cover sound bound hs supported complete
    have scalar : v.isScalar = true := by
      cases sort with
      | array => cases complete
      | bool | bitVec | float => cases v <;> simp_all [Value.hasSort, Value.isScalar]
    have alike := Value.Alike.of_isScalar scalar
    simp only
    exact ⟨v, bound, v, List.mem_filter.2 ⟨listed, by simp [sound.not_excluded bound alike]⟩, alike⟩

/-- A search that fails has gone on from every value under which the checks are true. -/
theorem tryValues_exhausted {level : Level} {next : Assignment → Nat → Outcome} {env : Assignment}
    {vs : List Value} {budget rest : Nat} (h : tryValues level next env vs budget = .exhausted rest)
    {v : Value} (hv : v ∈ vs) (holds : ∀ t ∈ level.checks, t.Holds (env.insert level.domain.name v)) :
    ∃ budget' rest', next (env.insert level.domain.name v) budget' = .exhausted rest' := by
  induction vs generalizing budget with
  | nil => cases hv
  | cons w ws ih =>
    cases budget with
    | zero => cases h
    | succ budget =>
      simp only [tryValues] at h
      cases hv with
      | head =>
        rw [if_pos ((allTrue_iff (Memory.sound_empty _)).2 holds)] at h
        split at h
        next => cases h
        next rest' failed => exact ⟨budget, rest', failed⟩
        next => cases h
      | tail _ hv =>
        split at h
        · split at h
          next => cases h
          next => exact ih h hv
          next => cases h
        · exact ih h hv

/-- A term that is true in a model is true under an assignment of the same values. -/
theorem holds_of_alike {env asg : Assignment} {t : Term} (h : t.Holds env)
    (same : ∀ x ∈ t.vars, AlikeResults (env.get? x.1) (asg.get? x.1)) : t.Holds asg := by
  have results := value?_alike same
  rw [h] at results
  generalize value : t.value? asg = r at results
  cases results with
  | both alike =>
    cases alike
    exact value

/-- A search over domains that list the values of a model does not fail. The constants of the earlier
levels have the values of the model already. -/
theorem search_not_exhausted {env : Assignment} {ls : List Level}
    (listed : ∀ level ∈ ls, ∃ v, env.get? level.domain.name = some v ∧
      ∃ w ∈ level.domain.values, v.Alike w)
    {asg : Assignment}
    (checks : ∀ i level, ls[i]? = some level → ∀ t ∈ level.checks, t.Holds env ∧
      ∀ x ∈ t.vars, AlikeResults (env.get? x.1) (asg.get? x.1) ∨
        x.1 ∈ (ls.take (i + 1)).map (·.domain.name))
    {budget rest : Nat} : search ls asg budget ≠ .exhausted rest := by
  induction ls generalizing asg budget rest with
  | nil => simp [search]
  | cons level ls ih =>
    intro failed
    obtain ⟨v, bound, w, hw, alike⟩ := listed level List.mem_cons_self
    have own : AlikeResults (env.get? level.domain.name)
        ((asg.insert level.domain.name w).get? level.domain.name) := by
      rw [bound, Table.get?_insert_self]
      exact .both alike
    have extended : ∀ x : String, AlikeResults (env.get? x) (asg.get? x) ∨ x = level.domain.name →
        AlikeResults (env.get? x) ((asg.insert level.domain.name w).get? x) := by
      intro x hx
      by_cases hit : x = level.domain.name
      · rwa [hit]
      · rw [Table.get?_insert_ne asg w (Ne.symm hit)]
        exact hx.resolve_right hit
    have holds : ∀ t ∈ level.checks, t.Holds (asg.insert level.domain.name w) := by
      intro t ht
      obtain ⟨inModel, known⟩ := checks 0 level rfl t ht
      exact holds_of_alike inModel fun x hx => extended x.1 (by simpa using known x hx)
    obtain ⟨budget', rest', failed'⟩ := tryValues_exhausted failed hw holds
    refine ih (fun l hl => listed l (List.mem_cons_of_mem _ hl)) ?_ failed'
    intro i l hl t ht
    obtain ⟨inModel, known⟩ := checks (i + 1) l hl t ht
    refine ⟨inModel, fun x hx => ?_⟩
    rcases known x hx with same | early
    · exact .inl (extended x.1 (.inl same))
    · rw [List.take_succ_cons, List.map_cons, List.mem_cons] at early
      exact early.imp_left fun hit => extended x.1 (.inr hit)

theorem levels_not_exhausted {env : Assignment} {domains : List Domain} {conjuncts : List Term}
    (listed : ∀ d ∈ domains, ∃ v, env.get? d.name = some v ∧ ∃ w ∈ d.values, v.Alike w)
    (holds : ∀ t ∈ conjuncts, t.Holds env)
    (named : ∀ t ∈ conjuncts, ∀ x ∈ t.vars, x.1 ∈ domains.map (·.name)) {asg : Assignment}
    {budget rest : Nat} : search (levels domains conjuncts) asg budget ≠ .exhausted rest := by
  apply search_not_exhausted
  · intro level hl
    obtain ⟨i, hi⟩ := List.mem_iff_getElem?.1 hl
    rw [getElem?_levels] at hi
    obtain ⟨d, hd, rfl⟩ := Option.map_eq_some_iff.1 hi
    exact listed d (List.mem_of_getElem? hd)
  · intro i level hi t ht
    rw [getElem?_levels] at hi
    obtain ⟨d, hd, rfl⟩ := Option.map_eq_some_iff.1 hi
    obtain ⟨mem, last⟩ := List.mem_filter.1 ht
    refine ⟨holds t mem, fun x hx => .inr ?_⟩
    obtain ⟨j, hj⟩ := List.mem_iff_getElem?.1 (named t mem x hx)
    have early := le_lastPosition hj hx
    rw [List.map_take, levels_names]
    rw [beq_iff_eq] at last
    exact List.mem_iff_getElem?.2 ⟨j, by rw [List.getElem?_take_of_lt (by omega), hj]⟩

theorem decideClosed_unsat {ts : List Term} {memory : Memory} (sound : memory.Sound {})
    (h : decideClosed ts memory = .unsat) : ∃ t ∈ ts, t.evalBool {} = .ok false := by
  induction ts generalizing memory with
  | nil => cases h
  | cons t ts ih =>
    obtain ⟨memory', sound', run⟩ := answers_recallBool {} t memory sound
    rw [decideClosed, run] at h
    rcases value : t.evalBool {} with _ | (_ | _) <;> rw [value] at h
    · cases h
    · exact ⟨t, List.mem_cons_self, value⟩
    · obtain ⟨u, hu, refuted⟩ := ih sound' h
      exact ⟨u, List.mem_cons_of_mem _ hu, refuted⟩

/-- What the decision procedure asks of a model: the conjuncts are true, and every constant has a value
of its sort. -/
structure Models (env : Assignment) (vars : Table String TermSort) (conjuncts : List Term) : Prop where
  holds : ∀ t ∈ conjuncts, t.Holds env
  sorted : ∀ t ∈ conjuncts, t.wellSorted TermSort.supported = true
  bound : ∀ t ∈ conjuncts, Facts.Bound env t
  entries : ∀ e ∈ vars.entries, ∃ v, env.get? e.1 = some v ∧ v.hasSort e.2
  supported : ∀ e ∈ vars.entries, e.2.supported = true
  named : ∀ t ∈ conjuncts, ∀ x ∈ t.vars, x.1 ∈ vars.keys

theorem Models.spares {env : Assignment} {vars : Table String TermSort} {conjuncts : List Term}
    (h : Models env vars conjuncts) : Spares env vars conjuncts where
  unrefuted t ht refuted := by cases (h.holds t ht).symm.trans refuted
  sorted := h.sorted
  bound t ht := (h.bound t ht).assigned
  entries e he _ := h.entries e he
  supported := h.supported
  named := h.named

/-- Domains of the constants of conjuncts. -/
def decisionDomains (vars : Table String TermSort) (conjuncts : List Term) : List Domain :=
  vars.entries.map fun e =>
    Domain.ofFacts (Facts.ofConjuncts vars conjuncts) (Literals.ofConjuncts conjuncts) e.1 e.2

theorem decisionDomains_names (vars : Table String TermSort) (conjuncts : List Term) :
    (decisionDomains vars conjuncts).map (·.name) = vars.keys := by
  simp only [decisionDomains, List.map_map, Function.comp_def, Domain.ofFacts_name]
  rfl

/-- Conjuncts of which none is false are refuted only if all domains are complete and not all of them are
true. -/
theorem Spares.decideOpen_unsat {env : Assignment} {vars : Table String TermSort} {conjuncts : List Term}
    {budget : Nat} (spares : Spares env vars conjuncts) (h : decideOpen budget vars conjuncts = .unsat) :
    (decisionDomains vars conjuncts).all (·.complete) = true ∧ ¬ ∀ t ∈ conjuncts, t.Holds env := by
  have sound := spares.sound_facts
  have listed : (decisionDomains vars conjuncts).all (·.complete) = true →
      ∀ d ∈ decisionDomains vars conjuncts,
        ∃ v, env.get? d.name = some v ∧ ∃ w ∈ d.values, v.Alike w := by
    intro complete d hd
    have own := List.all_eq_true.1 complete d hd
    obtain ⟨e, he, rfl⟩ := List.mem_map.1 hd
    rw [Domain.ofFacts_name]
    exact Domain.ofFacts_cover sound (spares.entries e he) (spares.supported e he) own
  unfold decideOpen at h
  dsimp only at h
  rw [sound.not_refuted, if_neg Bool.false_ne_true] at h
  split at h
  next empty =>
    split at h
    next complete =>
      obtain ⟨d, hd, isEmpty⟩ := List.any_eq_true.1 empty
      obtain ⟨v, -, w, hw, -⟩ := listed complete d hd
      rw [List.isEmpty_iff.1 isEmpty] at hw
      cases hw
    next => cases h
  next =>
    split at h
    next => cases h
    next rest failed =>
      split at h
      next complete =>
        refine ⟨complete, fun holds => ?_⟩
        refine levels_not_exhausted (listed complete) holds (fun t ht x hx => ?_) failed
        rw [decisionDomains_names]
        exact spares.named t ht x hx
      next => cases h
    next => cases h

theorem Models.decideOpen_ne_unsat {env : Assignment} {vars : Table String TermSort}
    {conjuncts : List Term} (h : Models env vars conjuncts) (budget : Nat) :
    decideOpen budget vars conjuncts ≠ .unsat := fun unsat =>
  (h.spares.decideOpen_unsat unsat).2 h.holds

mutual

theorem forall_openConjunction {P : Term → Prop}
    (opens : ∀ l items, P (.junction l .and items) → ∀ t ∈ items, P t) :
    (t : Term) → (others : List Term) → P t → (∀ u ∈ others, P u) →
      ∀ u ∈ openConjunction t others, P u
  | .junction l .and items, others, ht, ho => by
    rw [openConjunction]
    exact forall_openConjunctions opens items others (opens l items ht) ho
  | .junction _ .or _, _, ht, ho | .leaf _ _, _, ht, ho | .unary _ _ _, _, ht, ho
  | .binary _ _ _ _, _, ht, ho | .ternary _ _ _ _ _, _, ht, ho => by
    rw [openConjunction]
    · exact List.forall_mem_cons.2 ⟨ht, ho⟩
    all_goals simp

/-- What a conjunction hands down to its items holds of all conjuncts. -/
theorem forall_openConjunctions {P : Term → Prop}
    (opens : ∀ l items, P (.junction l .and items) → ∀ t ∈ items, P t) :
    (ts : List Term) → (others : List Term) → (∀ t ∈ ts, P t) → (∀ u ∈ others, P u) →
      ∀ u ∈ openConjunctions ts others, P u
  | [], _, _, ho => ho
  | t :: ts, others, hts, ho => by
    obtain ⟨ht, hts⟩ := List.forall_mem_cons.1 hts
    rw [openConjunctions]
    exact forall_openConjunction opens t _ ht (forall_openConjunctions opens ts others hts ho)

end

section Conjuncts

variable {env : Assignment} {constraints conjuncts : List Term}

/-- Conjuncts are well sorted if the constraints are, and have no other constants. -/
theorem handed_openConjunctions (sorted : wellSortedBools TermSort.supported constraints = true) :
    ∀ t ∈ openConjunctions constraints [],
      t.wellSorted TermSort.supported = true ∧ t.vars ⊆ varsAll constraints := by
  refine forall_openConjunctions ?_ constraints [] ?_ (by simp)
  · rintro l items ⟨hs, hv⟩ t ht
    exact ⟨(wellSortedBools_iff.1 hs t ht).2, fun x hx => hv (vars_subset_of_mem ht hx)⟩
  · exact fun t ht =>
      ⟨(wellSortedBools_iff.1 sorted t ht).2, fun x hx => mem_varsAll.2 ⟨t, ht, hx⟩⟩

theorem occurs_of_freeVars : ∀ e ∈ (freeVars conjuncts).entries, ∃ t ∈ conjuncts, e ∈ t.vars := fun _ he =>
  mem_varsAll.1 (mem_varsAll_of_freeVars ((freeVars_distinct conjuncts).mem_entries.1 he))

theorem mem_keys_freeVars {t : Term} (ht : t ∈ conjuncts) {x : String × TermSort} (hx : x ∈ t.vars) :
    x.1 ∈ (freeVars conjuncts).keys := by
  obtain ⟨s, hs⟩ := freeVars_of_mem_varsAll (mem_varsAll.2 ⟨t, ht, hx⟩)
  exact List.mem_map.2 ⟨_, Table.mem_of_get? hs, rfl⟩

/-- What the constraints hand down to the conjuncts that are decided. -/
theorem models_of_constraints (sorted : wellSortedBools TermSort.supported constraints = true)
    (bound : env.WellSorted constraints) (holds : ∀ c ∈ constraints, c.Holds env)
    (sub : conjuncts ⊆ openConjunctions constraints []) :
    Models env (freeVars conjuncts) conjuncts := by
  have handed := handed_openConjunctions sorted
  have opened := (holds_openConjunctions env constraints []).2 ⟨holds, by simp⟩
  exact {
    holds := fun t ht => opened t (sub ht)
    sorted := fun t ht => (handed t (sub ht)).1
    bound := fun t ht x hx => bound x ((handed t (sub ht)).2 hx)
    entries := fun e he => by
      obtain ⟨t, ht, hx⟩ := occurs_of_freeVars e he
      exact bound e ((handed t (sub ht)).2 hx)
    supported := fun e he => by
      obtain ⟨t, ht, hx⟩ := occurs_of_freeVars e he
      exact admissible_of_mem_vars (handed t (sub ht)).1 e hx
    named := fun t ht x hx => mem_keys_freeVars ht hx }

/-- Conjuncts without constants that are refuted have one that is false under every assignment. -/
theorem decideClosed_false (closed : (freeVars conjuncts).entries.isEmpty = true)
    (h : decideClosed conjuncts {} = .unsat) :
    ∃ t ∈ conjuncts, ∀ env : Assignment, t.value? env = some (.bool false) := by
  obtain ⟨t, ht, refuted⟩ := decideClosed_unsat (Memory.sound_empty {}) h
  have noVars : ∀ x ∈ t.vars, False := by
    intro x hx
    have listed := mem_keys_freeVars ht hx
    rw [Table.keys, List.isEmpty_iff.1 closed] at listed
    cases listed
  refine ⟨t, ht, fun env => ?_⟩
  rw [← value?_bool_iff_evalBool] at refuted
  exact (value?_congr fun x hx => (noVars x hx).elim).trans refuted

/-- Conjuncts without constants have the same truth values in every model. -/
theorem decideClosed_ne_unsat (holds : ∀ t ∈ conjuncts, t.Holds env)
    (closed : (freeVars conjuncts).entries.isEmpty = true) : decideClosed conjuncts {} ≠ .unsat := by
  intro h
  obtain ⟨t, ht, refuted⟩ := decideClosed_false closed h
  cases (refuted env).symm.trans (holds t ht)

end Conjuncts

/-- Constraints that are answered to have no model have none: no assignment that gives every constant a
value of its sort makes all of them true, whatever the budget. -/
theorem check_unsat_sound (budget : Nat) (constraints : List Term)
    (sorted : wellSortedBools TermSort.supported constraints = true)
    (h : check budget constraints = .unsat) :
    ¬ ∃ env : Assignment, env.WellSorted constraints ∧
      ∀ c ∈ constraints, c.evalShared env = .ok (.bool true) := by
  rintro ⟨env, bound, evaluates⟩
  have holds : ∀ c ∈ constraints, c.Holds env := fun c hc =>
    holds_iff_eval.2 ((evalShared_eq_eval env c).symm.trans (evaluates c hc))
  have kept : (openConjunctions constraints []).filter (fun t => !(t.bool? == some true)) ⊆
      openConjunctions constraints [] := List.filter_sublist.subset
  have models := models_of_constraints sorted bound holds kept
  have opened := (holds_openConjunctions env constraints []).2 ⟨holds, by simp⟩
  simp only [check] at h
  split at h
  next literal =>
    obtain ⟨t, ht, isFalse⟩ := List.any_eq_true.1 literal
    obtain ⟨l, rfl⟩ := bool?_eq_some (beq_iff_eq.1 isFalse)
    cases opened _ ht
  next =>
    split at h
    next closed => exact decideClosed_ne_unsat models.holds closed h
    next => exact models.decideOpen_ne_unsat budget h

/-- Two constants that differ and are equal, which no single conjunct says of either. -/
def unequalEquals : List Term :=
  let b := .leaf 0 (.var "b" .bool)
  let c := .leaf 1 (.var "c" .bool)
  [.binary 2 .xor b c, .binary 3 .eq b c]

theorem check_unsat_sound_unequalEquals :
    check 10 unequalEquals = .unsat ∧ ¬ ∃ env : Assignment, env.WellSorted unequalEquals ∧
      ∀ c ∈ unequalEquals, c.evalShared env = .ok (.bool true) := by
  have answer : check 10 unequalEquals = .unsat := by cbv
  exact ⟨answer, check_unsat_sound 10 unequalEquals (by decide) answer⟩

/-- The constants whose sort has values are bound to one. Constants of floating-point formats other than
single and double precision may be without a value. -/
def Serves (env : Assignment) (ts : List Term) : Prop :=
  ∀ x ∈ varsAll ts, x.2.valued = true → ∃ v, env.get? x.1 = some v ∧ v.hasSort x.2 = true

/-- Whether the conjuncts have constants, and only such whose domains list all values they can have. -/
def fullyListed (constraints : List Term) : Bool :=
  let conjuncts := (openConjunctions constraints []).filter fun t => !(t.bool? == some true)
  let vars := freeVars conjuncts
  !vars.entries.isEmpty && (decisionDomains vars conjuncts).all (·.complete)

theorem spares_of_constraints {env : Assignment} {constraints conjuncts : List Term}
    (sorted : wellSortedBools TermSort.supported constraints = true) (serves : Serves env constraints)
    (unrefuted : ∀ t ∈ openConjunctions constraints [], t.value? env ≠ some (.bool false))
    (sub : conjuncts ⊆ openConjunctions constraints []) : Spares env (freeVars conjuncts) conjuncts := by
  have handed := handed_openConjunctions sorted
  exact {
    unrefuted := fun t ht => unrefuted t (sub ht)
    sorted := fun t ht => (handed t (sub ht)).1
    bound := fun t ht x hx => serves x ((handed t (sub ht)).2 hx)
    entries := fun e he => by
      obtain ⟨t, ht, hx⟩ := occurs_of_freeVars e he
      exact serves e ((handed t (sub ht)).2 hx)
    supported := fun e he => by
      obtain ⟨t, ht, hx⟩ := occurs_of_freeVars e he
      exact admissible_of_mem_vars (handed t (sub ht)).1 e hx
    named := fun t ht x hx => mem_keys_freeVars ht hx }

/-- Constraints of which no conjunct is false under some assignment, whether it is true or without a truth
value, are not refuted, unless all domains are complete and some conjunct has no truth value: an exhausted
search takes the error for a refutation. -/
theorem check_ne_unsat_of_unrefuted (budget : Nat) (constraints : List Term) (env : Assignment)
    (sorted : wellSortedBools TermSort.supported constraints = true) (serves : Serves env constraints)
    (unrefuted : ∀ t ∈ openConjunctions constraints [], t.evalBool env ≠ .ok false)
    (unlisted : fullyListed constraints = false ∨
      ∀ t ∈ openConjunctions constraints [], t.evalBool env = .ok true) :
    check budget constraints ≠ .unsat := by
  have undecided : ∀ t ∈ openConjunctions constraints [], t.value? env ≠ some (.bool false) :=
    fun t ht refuted => unrefuted t ht (value?_bool_iff_evalBool.1 refuted)
  have kept : (openConjunctions constraints []).filter (fun t => !(t.bool? == some true)) ⊆
      openConjunctions constraints [] := List.filter_sublist.subset
  have spares := spares_of_constraints sorted serves undecided kept
  intro h
  simp only [check] at h
  split at h
  next literal =>
    obtain ⟨t, ht, isFalse⟩ := List.any_eq_true.1 literal
    obtain ⟨l, rfl⟩ := bool?_eq_some (beq_iff_eq.1 isFalse)
    exact undecided _ ht (value?_leaf ..)
  next =>
    split at h
    next closed =>
      obtain ⟨t, ht, refuted⟩ := decideClosed_false closed h
      exact undecided t (kept ht) (refuted env)
    next constants =>
      obtain ⟨complete, untrue⟩ := spares.decideOpen_unsat h
      rcases unlisted with some | all
      · rw [fullyListed, eq_false_of_ne_true constants, complete] at some
        cases some
      · exact untrue fun t ht => holds_iff_evalBool.2 (all t (kept ht))

/-- A mark at an index, and whether a number of half precision, which has no value, is none. -/
def unvaluedMark : List Term :=
  [.binary 0 .select (.leaf 1 (.var "marks" (.array (.bitVec 32) .bool))) (.leaf 2 (.bitVec 7 32)),
    .unary 3 .fpIsNaN (.leaf 4 (.float 0 ⟨5, 11⟩))]

theorem check_ne_unsat_of_unrefuted_unvaluedMark :
    let marked : Assignment := .ofList [("marks", .array (.const (.bool true)))]
    Serves marked unvaluedMark ∧
      (∀ t ∈ openConjunctions unvaluedMark [], t.evalBool marked ≠ .ok false) ∧
      fullyListed unvaluedMark = false ∧ check 10 unvaluedMark ≠ .unsat := by
  intro marked
  have serves : Serves marked unvaluedMark := by
    intro x hx _
    cases List.mem_singleton.1 hx
    exact ⟨.array (.const (.bool true)), by cbv, by decide⟩
  have unrefuted : ∀ t ∈ openConjunctions unvaluedMark [], t.evalBool marked ≠ .ok false := by
    have value : (unvaluedMark.head (by decide)).evalBool marked = .ok true := by cbv
    refine List.forall_mem_cons.2 ⟨fun refuted => ?_, List.forall_mem_singleton.2 fun refuted => ?_⟩
    · cases value.symm.trans refuted
    · cases refuted
  have unlisted : fullyListed unvaluedMark = false := by cbv
  exact ⟨serves, unrefuted, unlisted,
    check_ne_unsat_of_unrefuted 10 unvaluedMark marked (by decide) serves unrefuted (.inl unlisted)⟩

/-- A flag, and whether a number of half precision is none. -/
def unvaluedFlag : List Term :=
  [.leaf 0 (.var "b" .bool), .unary 1 .fpIsNaN (.leaf 2 (.float 0 ⟨5, 11⟩))]

/-- No assignment makes a conjunct false, and yet the constraints are refuted: the two values of the flag are
all there are, and neither gives the other conjunct a truth value. -/
theorem check_unsat_unvaluedFlag :
    let env : Assignment := .ofList [("b", .bool true)]
    wellSortedBools TermSort.supported unvaluedFlag = true ∧ env.WellSorted unvaluedFlag ∧
      (∀ t ∈ openConjunctions unvaluedFlag [],
        t.evalBool env = .ok true ∨ ∃ e, t.evalBool env = .error e) ∧
      check 10 unvaluedFlag = .unsat := by
  refine ⟨by decide, fun x hx => ?_, ?_, by cbv⟩
  · cases List.mem_singleton.1 hx
    exact ⟨.bool true, by cbv, rfl⟩
  · exact List.forall_mem_cons.2 ⟨.inl (by cbv), List.forall_mem_singleton.2 (.inr ⟨_, rfl⟩)⟩

end SinkReach.ModelSearch
