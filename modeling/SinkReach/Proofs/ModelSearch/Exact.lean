import SinkReach.Proofs.ModelSearch.Budget
import SinkReach.Proofs.ModelSearch.Unsat
import SinkReach.Proofs.ModelSearch.WellSorted
import SinkReach.Proofs.Term.Soundness

/-!
Constraints over constants of few values are decided exactly. Facts only ever narrow the interval of a
constant, so a bit vector of at most eight bits keeps a complete domain of at most 256 values, whatever is
learned about it; a search over such domains comes to its end within a budget that depends on the number
of constants alone.
-/
namespace SinkReach

/-- Whether the sort has at most 256 values, truth values or short bit vectors. -/
def TermSort.isNarrow : TermSort → Bool
  | bool => true
  | bitVec w => decide (1 ≤ w ∧ w ≤ 8)
  | float _ | array _ _ => false

mutual

/-- A weaker test of sorts admits more terms. -/
theorem Term.wellSorted_mono {p q : TermSort → Bool} (weaker : ∀ s, p s = true → q s = true) :
    (t : Term) → t.wellSorted p = true → t.wellSorted q = true
  | .leaf _ _, h => by
    simp only [wellSorted, Bool.and_eq_true] at h ⊢
    exact ⟨weaker _ h.1, h.2⟩
  | .unary _ _ a, h => by
    simp only [wellSorted, Bool.and_eq_true] at h ⊢
    exact ⟨⟨weaker _ h.1.1, h.1.2⟩, wellSorted_mono weaker a h.2⟩
  | .binary _ _ a b, h => by
    simp only [wellSorted, Bool.and_eq_true] at h ⊢
    exact ⟨⟨⟨weaker _ h.1.1.1, h.1.1.2⟩, wellSorted_mono weaker a h.1.2⟩, wellSorted_mono weaker b h.2⟩
  | .ternary _ _ a b c, h => by
    simp only [wellSorted, Bool.and_eq_true] at h ⊢
    exact ⟨⟨⟨⟨weaker _ h.1.1.1.1, h.1.1.1.2⟩, wellSorted_mono weaker a h.1.1.2⟩,
      wellSorted_mono weaker b h.1.2⟩, wellSorted_mono weaker c h.2⟩
  | .junction _ _ items, h => wellSortedBools_mono weaker items h

theorem Term.wellSortedBools_mono {p q : TermSort → Bool} (weaker : ∀ s, p s = true → q s = true) :
    (ts : List Term) → wellSortedBools p ts = true → wellSortedBools q ts = true
  | [], h => h
  | t :: ts, h => by
    simp only [wellSortedBools, Bool.and_eq_true] at h ⊢
    exact ⟨⟨h.1.1, wellSorted_mono weaker t h.1.2⟩, wellSortedBools_mono weaker ts h.2⟩

end

theorem TermSort.supported_of_valued : (s : TermSort) → s.valued = true → s.supported = true
  | bool, _ | float _, _ => rfl
  | bitVec _, h => h
  | array i e, h => by
    simp only [valued, supported, Bool.and_eq_true] at h ⊢
    exact ⟨i.supported_of_valued h.1, e.supported_of_valued h.2⟩

namespace ModelSearch

open Term

namespace Facts

/-- A property of facts that every single fact keeps that may be learned. -/
structure Kept (P : Facts → Prop) : Prop where
  pin : ∀ f name v, P f → P (f.pin name v)
  exclude : ∀ f name v, P f → P (f.exclude name v)
  atLeast : ∀ f name n, P f → P (f.atLeast name n)
  atMost : ∀ f name n, P f → P (f.atMost name n)
  element : ∀ f name index v, P f → P (f.element name index v)

namespace Kept

variable {P : Facts → Prop} (kept : Kept P) {f : Facts}
include kept

theorem learnEq (h : P f) (name : String) (lit : Term) (positive : Bool) :
    P (f.learnEq name lit positive) := by
  unfold Facts.learnEq
  split
  next => exact h
  next v _ =>
    split
    next =>
      refine kept.pin _ name v ?_
      split
      next => exact kept.atMost _ name _ (kept.atLeast _ name _ h)
      next => exact h
    next => exact kept.exclude _ name v h

theorem learnElement (h : P f) (array index lit : Term) : P (f.learnElement array index lit) := by
  unfold Facts.learnElement
  split
  · exact kept.element _ _ _ _ h
  · exact h

theorem learnEquation (h : P f) (a b : Term) (positive : Bool) : P (f.learnEquation a b positive) := by
  unfold Facts.learnEquation
  split
  · exact kept.learnEq h ..
  · exact kept.learnEq h ..
  · split
    · split
      · split
        · exact kept.learnElement h ..
        · exact h
      · split
        · exact kept.learnElement h ..
        · exact h
      · exact h
    · exact h

theorem learnBound (h : P f) (name : String) (op : Bits.CompareOp) (n : Int) :
    P (f.learnBound name op n) := by
  cases op with
  | slt | sle => exact kept.atMost _ name _ h
  | sgt | sge => exact kept.atLeast _ name _ h

theorem learnCompare (h : P f) (op : Bits.CompareOp) (a b : Term) (positive : Bool) :
    P (f.learnCompare op a b positive) := by
  unfold Facts.learnCompare
  dsimp only
  split
  · exact kept.learnBound h ..
  · exact kept.learnBound h ..
  · exact h

/-- Learning from a conjunct keeps the property. -/
theorem learn (h : P f) (positive : Bool) (t : Term) : P (f.learn positive t) := by
  fun_induction Facts.learn f positive t with
  | case1 positive l a ih => exact ih
  | case2 positive l name => exact kept.pin _ _ _ h
  | case3 positive l a b => exact kept.learnEquation h ..
  | case4 positive l op a b => exact kept.learnCompare h ..
  | case5 => exact h

theorem ofConjuncts {vars : Table String TermSort} (start : P (initial vars)) (ts : List Term) :
    P (Facts.ofConjuncts vars ts) :=
  List.foldlRecOn ts _ start fun _ h t _ => kept.learn h true t

end Kept

/-- Every interval is short enough to be listed completely. -/
def Narrow (f : Facts) : Prop :=
  ∀ name i, f.intervals.get? name = some i → i.2 - i.1 < completeSpan

theorem Narrow.insert {f : Facts} (h : f.Narrow) {name : String} {lo hi : Int}
    (narrow : hi - lo < completeSpan) :
    ({ f with intervals := f.intervals.insert name (lo, hi) } : Facts).Narrow := by
  intro name' i found
  rw [Table.get?_insert] at found
  split at found
  · cases found
    exact narrow
  · exact h name' i found

theorem kept_narrow : Kept Narrow where
  pin f name v h := by
    unfold Facts.pin
    split
    · split <;> exact h
    · exact h
  exclude _ _ _ h := h
  atLeast f name n h := by
    unfold Facts.atLeast
    split
    next lo hi known =>
      have old := h name _ known
      exact h.insert (by omega)
    next => exact h
  atMost f name n h := by
    unfold Facts.atMost
    split
    next lo hi known =>
      have old := h name _ known
      exact h.insert (by omega)
    next => exact h
  element f name index v h := by
    unfold Facts.element
    dsimp only
    split
    · split <;> exact h
    · exact h

end Facts

theorem signedRange_narrow {w : Nat} (short : w ≤ 8) :
    (signedRange w).2 - (signedRange w).1 < completeSpan := by
  have half : 2 ^ (Bits.kept w - 1) ≤ 2 ^ 7 :=
    Nat.pow_le_pow_right (by decide) (by rw [Bits.kept]; omega)
  simp only [signedRange, completeSpan, Nat.pow_eq]
  omega

theorem Facts.narrow_initial {vars : Table String TermSort}
    (narrow : ∀ e ∈ vars.entries, e.2.isNarrow = true) : (initial vars).Narrow := by
  intro name i found
  have mem := Table.mem_of_get? found
  simp only [initial, List.mem_filterMap, Option.map_eq_some_iff] at mem
  obtain ⟨⟨name', s⟩, he, w, width, eq⟩ := mem
  cases s with
  | bool | float | array => cases width
  | bitVec w' =>
    cases width
    cases eq
    exact signedRange_narrow (of_decide_eq_true (narrow _ he)).2

theorem bitsCandidates_narrow {w : Nat} {lo hi : Int} (narrow : hi - lo < completeSpan) (ls : Literals) :
    (bitsCandidates w lo hi ls).2 = true ∧ (bitsCandidates w lo hi ls).1.length ≤ 256 := by
  rw [bitsCandidates, if_pos narrow]
  refine ⟨rfl, ?_⟩
  simp only [span, List.length_map, List.length_range]
  rw [completeSpan] at narrow
  omega

/-- The domain of a constant of few values lists all of them that the facts leave. -/
theorem Domain.ofFacts_narrow {f : Facts} (narrow : f.Narrow) (ls : Literals) (name : String)
    {s : TermSort} (hs : s.isNarrow = true) :
    (Domain.ofFacts f ls name s).complete = true ∧ (Domain.ofFacts f ls name s).values.length ≤ 256 := by
  have listed : (candidates f ls name s).2 = true ∧ (candidates f ls name s).1.length ≤ 256 := by
    cases s with
    | bool => exact ⟨rfl, Nat.le_of_ble_eq_true rfl⟩
    | bitVec w =>
      refine bitsCandidates_narrow ?_ ls
      cases known : f.intervals.get? name with
      | none => exact signedRange_narrow (of_decide_eq_true hs).2
      | some i => exact narrow name i known
    | float | array => cases hs
  unfold Domain.ofFacts
  split
  · exact ⟨rfl, Nat.le_of_ble_eq_true rfl⟩
  · exact ⟨listed.1, Nat.le_trans (List.length_filter_le ..) listed.2⟩

/-- Over complete domains only a search that is given up leaves the answer unknown. -/
theorem search_aborted_of_unknown {vars : Table String TermSort} {conjuncts : List Term} {budget : Nat}
    (complete : (decisionDomains vars conjuncts).all (·.complete) = true)
    (h : decideOpen budget vars conjuncts = .unknown) :
    search (levels (decisionDomains vars conjuncts) conjuncts) {} budget = .aborted := by
  unfold decideOpen at h
  dsimp only at h
  split at h
  · cases h
  · split at h
    · split at h
      next => cases h
      next incomplete => exact absurd complete incomplete
    · split at h
      next => cases h
      next =>
        split at h
        next => cases h
        next incomplete => exact absurd complete incomplete
      next aborted => exact aborted

/-- A search over constants of few values that has the budget for all their values is not given up. -/
theorem decideOpen_ne_unknown {vars : Table String TermSort} {conjuncts : List Term} {budget : Nat}
    (narrow : ∀ e ∈ vars.entries, e.2.isNarrow = true)
    (enough : ∑ i ∈ Finset.range vars.entries.length, 256 ^ (i + 1) ≤ budget) :
    decideOpen budget vars conjuncts ≠ .unknown := by
  have facts : (Facts.ofConjuncts vars conjuncts).Narrow :=
    Facts.kept_narrow.ofConjuncts (Facts.narrow_initial narrow) conjuncts
  have domains : ∀ d ∈ decisionDomains vars conjuncts, d.complete = true ∧ d.values.length ≤ 256 := by
    intro d hd
    obtain ⟨e, he, rfl⟩ := List.mem_map.1 hd
    exact Domain.ofFacts_narrow facts _ e.1 (narrow e he)
  have few : ∀ level ∈ levels (decisionDomains vars conjuncts) conjuncts,
      level.domain.values.length ≤ 256 := by
    intro level hl
    have mem := List.mem_map_of_mem (f := Level.domain) hl
    rw [levels_domains] at mem
    exact (domains _ mem).2
  have size : treeSize (levels (decisionDomains vars conjuncts) conjuncts) ≤ budget :=
    Nat.le_trans (treeSize_le few) (by simpa [levels, decisionDomains] using enough)
  intro unknown
  have aborted := search_aborted_of_unknown (List.all_eq_true.2 fun d hd => (domains d hd).1) unknown
  rcases search_endsWithin _ {} budget size with ⟨model, found⟩ | ⟨rest, failed, -⟩
  · cases aborted.symm.trans found
  · cases aborted.symm.trans failed

/-- Conjuncts without constants that all have a truth value are decided. -/
theorem decideClosed_ne_unknown {ts : List Term} {memory : Memory} (sound : memory.Sound {})
    (valued : ∀ t ∈ ts, ∃ b, t.evalBool {} = .ok b) : decideClosed ts memory ≠ .unknown := by
  induction ts generalizing memory with
  | nil => simp [decideClosed]
  | cons t ts ih =>
    obtain ⟨⟨b, value⟩, rest⟩ := List.forall_mem_cons.1 valued
    obtain ⟨memory', sound', run⟩ := answers_recallBool {} t memory sound
    rw [decideClosed, run, value]
    cases b with
    | false => simp
    | true => exact ih sound' rest

theorem evalBool_of_closed {t : Term} (sorted : t.wellSorted TermSort.valued = true)
    (sort : t.sort = .bool) (closed : t.vars = []) : ∃ b, t.evalBool {} = .ok b := by
  have bound : Assignment.WellSorted {} [t] := by
    intro x hx
    simp [varsAll, closed] at hx
  obtain ⟨v, value, hs⟩ := denote_hasSort (Assignment.completed_wellSorted {}) sorted
  rw [← bound.completed (List.mem_singleton.2 rfl), ← value?_eq_denote] at value
  rw [sort] at hs
  obtain ⟨b, rfl⟩ := Value.bool_of_hasSort hs
  exact ⟨b, value?_bool_iff_evalBool.1 value⟩

/-- Terms with fewer constants have no more different names. -/
theorem length_freeVars_le {ts us : List Term} (sub : varsAll ts ⊆ varsAll us) :
    (freeVars ts).entries.length ≤ (freeVars us).entries.length := by
  have keys : (freeVars ts).keys ⊆ (freeVars us).keys := by
    intro name hn
    obtain ⟨e, he, rfl⟩ := List.mem_map.1 hn
    have mem := mem_varsAll_of_freeVars ((freeVars_distinct ts).mem_entries.1 he)
    obtain ⟨s, hs⟩ := freeVars_of_mem_varsAll (sub mem)
    exact List.mem_map.2 ⟨_, Table.mem_of_get? hs, rfl⟩
  simpa [Table.keys] using ((freeVars_distinct ts).subperm keys).length_le

/-- Constraints that have a model are not refuted. -/
theorem check_ne_unsat_of_model {budget : Nat} {constraints : List Term} {env : Assignment}
    (sorted : wellSortedBools TermSort.supported constraints = true) (bound : env.WellSorted constraints)
    (holds : ∀ c ∈ constraints, c.Holds env) : check budget constraints ≠ .unsat := by
  have kept : (openConjunctions constraints []).filter (fun t => !(t.bool? == some true)) ⊆
      openConjunctions constraints [] := List.filter_sublist.subset
  have models := models_of_constraints sorted bound holds kept
  unfold check
  dsimp only
  split
  next literal =>
    obtain ⟨t, ht, isFalse⟩ := List.any_eq_true.1 literal
    obtain ⟨l, rfl⟩ := bool?_eq_some (beq_iff_eq.1 isFalse)
    cases (holds_openConjunctions env constraints []).2 ⟨holds, nofun⟩ _ ht
  next =>
    split
    next closed => exact decideClosed_ne_unsat models.holds closed
    next => exact models.decideOpen_ne_unsat budget

/-- Constraints over truth values and bit vectors of at most eight bits are decided: with a budget of
`256 + 256 ^ 2 + ...` assignments, one summand for each constant, the answer is never unknown, and it is
that there is a model exactly if there is one. -/
theorem check_decides (budget : Nat) (constraints : List Term)
    (sorted : wellSortedBools TermSort.valued constraints = true) (one : OneSorted (varsAll constraints))
    (narrow : ∀ x ∈ varsAll constraints, x.2.isNarrow = true)
    (enough : ∑ i ∈ Finset.range (freeVars constraints).entries.length, 256 ^ (i + 1) ≤ budget) :
    ((∃ model, check budget constraints = .sat model) ∨ check budget constraints = .unsat) ∧
      ((∃ model, check budget constraints = .sat model) ↔
        ∃ env : Assignment, env.WellSorted constraints ∧
          ∀ c ∈ constraints, c.evalShared env = .ok (.bool true)) := by
  have known : check budget constraints ≠ .unknown := by
    unfold check
    dsimp only
    split
    next => simp
    next =>
      split
      next closed =>
        refine decideClosed_ne_unknown (Memory.sound_empty {}) fun t ht => ?_
        have handed : ∀ t ∈ openConjunctions constraints [],
            t.sort = .bool ∧ t.wellSorted TermSort.valued = true :=
          forall_openConjunctions (fun _ _ h => wellSortedBools_iff.1 h.2) constraints []
            (wellSortedBools_iff.1 sorted) fun _ h => nomatch h
        obtain ⟨sort, sorted⟩ := handed t (List.mem_filter.1 ht).1
        refine evalBool_of_closed sorted sort (List.eq_nil_iff_forall_not_mem.2 fun x hx => ?_)
        have listed := mem_keys_freeVars ht hx
        rw [Table.keys, List.isEmpty_iff.1 closed] at listed
        cases listed
      next =>
        refine decideOpen_ne_unknown (fun e he => narrow e (mem_varsAll_kept.1 ?_)) ?_
        · exact mem_varsAll_of_freeVars ((freeVars_distinct _).mem_entries.1 he)
        · refine Nat.le_trans (Finset.sum_le_sum_of_subset ?_) enough
          exact Finset.range_mono (length_freeVars_le fun _ hx => mem_varsAll_kept.1 hx)
  have supported := wellSortedBools_mono TermSort.supported_of_valued constraints sorted
  have holds_iff {env : Assignment} {c : Term} : c.evalShared env = .ok (.bool true) ↔ c.Holds env := by
    rw [evalShared_eq_eval, holds_iff_eval]
  simp only [holds_iff]
  cases answer : check budget constraints with
  | unknown => exact absurd answer known
  | unsat =>
    have none (env : Assignment) (bound : env.WellSorted constraints)
        (holds : ∀ c ∈ constraints, c.Holds env) : False :=
      check_ne_unsat_of_model supported bound holds answer
    simpa using none
  | sat model =>
    have models := check_sat_wellSorted (fun t ht => (wellSortedBools_iff.1 sorted t ht).2) one answer
    simpa using ⟨model, models, holds_of_check_sat answer⟩

/-- A number of three bits whose square is two. -/
def rootOfTwo : List Term :=
  let x := .leaf 0 (.var "x" (.bitVec 3))
  [.binary 1 .eq (.binary 2 (.bits .mul) x x) (.leaf 3 (.bitVec 2 3))]

theorem check_decides_rootOfTwo :
    ∑ i ∈ Finset.range (freeVars rootOfTwo).entries.length, 256 ^ (i + 1) ≤ 256 ∧
      check 256 rootOfTwo = .unsat ∧
      ¬ ∃ env : Assignment, env.WellSorted rootOfTwo ∧
        ∀ c ∈ rootOfTwo, c.evalShared env = .ok (.bool true) := by
  have single : (freeVars rootOfTwo).entries.length = 1 := by cbv
  have enough : ∑ i ∈ Finset.range (freeVars rootOfTwo).entries.length, 256 ^ (i + 1) ≤ 256 := by
    rw [single]
    decide
  have answer : check 256 rootOfTwo = .unsat := by cbv
  have vars : varsAll rootOfTwo = [("x", .bitVec 3), ("x", .bitVec 3)] := rfl
  have one : OneSorted (varsAll rootOfTwo) := by
    intro name s t hs ht
    simp only [vars, List.mem_cons, List.not_mem_nil, or_false, or_self, Prod.mk.injEq] at hs ht
    exact hs.2.trans ht.2.symm
  have decided := check_decides 256 rootOfTwo (by decide) one (by decide) enough
  refine ⟨enough, answer, fun model => ?_⟩
  obtain ⟨m, found⟩ := decided.2.2 model
  cases answer.symm.trans found

end ModelSearch
end SinkReach
