import SinkReach.Proofs.ModelSearch.Facts
import SinkReach.Proofs.ModelSearch.Unsat
import SinkReach.Proofs.Term.Folding
import SinkReach.Proofs.Term.Nodes

/-!
Models that the decision procedure returns bind every constant to a value of its sort: facts come of
equations between a constant and a literal of its sort, and all other candidates are made for the sort.
-/
namespace SinkReach

open Term

theorem Term.wellSorted_children {admissible : TermSort → Bool} (t : Term)
    (h : t.wellSorted admissible = true) : ∀ c ∈ t.children, c.wellSorted admissible = true := by
  cases t with
  | leaf => exact fun _ h => nomatch h
  | unary l op a =>
    simp only [wellSorted, Bool.and_eq_true] at h
    simp [children, h]
  | binary l op a b =>
    simp only [wellSorted, Bool.and_eq_true] at h
    simp [children, h]
  | ternary l op a b c =>
    simp only [wellSorted, Bool.and_eq_true] at h
    simp [children, h]
  | junction l op items => exact fun c hc => (wellSortedBools_iff.1 h c hc).2

namespace ModelSearch

/-- A literal has a value of its sort. -/
theorem literal?_hasSort {t : Term} {v : Value} (h : literal? t = some v)
    (sorted : t.wellSorted TermSort.valued = true) : v.hasSort t.sort = true := by
  obtain ⟨value, -⟩ := literal?_eq_some h {}
  have lit : t.isLiteral = true := by
    unfold literal? at h
    split at h
    next lit => exact lit
    next => cases h
  obtain ⟨l, a, rfl, notVar⟩ := leaf_of_isLiteral lit
  obtain ⟨w, hw, sort⟩ := denote_hasSort sampleValuation_wellSorted sorted
  rw [value?_eq_denote] at value
  have same : (leaf l a).denote sampleValuation = (leaf l a).denote (Assignment.valuation {}) := by
    cases a with
    | bool | bitVec | float => rfl
    | var name s => exact absurd rfl (notVar name s)
  rw [same, value] at hw
  cases hw
  exact sort

/-- The number is the pattern of a double. -/
def IsDouble (x : Nat) : Prop := x < 2 ^ Precision.double.format.width

/-- The floating-point literals are doubles. -/
structure Literals.InRange (ls : Literals) : Prop where
  doubles : ∀ x ∈ ls.doubles, IsDouble x

theorem Literals.InRange.add {ls : Literals} (h : ls.InRange) {t : Term}
    (sorted : t.wellSorted TermSort.valued = true) : (ls.add t).InRange := by
  unfold Literals.add
  split
  · dsimp only
    split
    · exact h
    · exact ⟨h.doubles⟩
  next l bits f =>
    split
    next x found =>
      obtain ⟨v, value, double⟩ := Option.bind_eq_some_iff.1 found
      split
      · exact h
      · refine ⟨List.forall_mem_append.2 ⟨h.doubles, List.forall_mem_singleton.2 ?_⟩⟩
        have sort := literal?_hasSort value sorted
        obtain ⟨p, bits, rfl, rfl, lt⟩ := Value.float_of_hasSort sort
        obtain ⟨y, hy, small⟩ := Value.toDouble_hasSort lt
        rw [double] at hy
        cases hy
        exact small
    · exact h
  · exact h

theorem Literals.ofConjuncts_inRange {ts : List Term}
    (sorted : ∀ t ∈ ts, t.wellSorted TermSort.valued = true) : (Literals.ofConjuncts ts).InRange := by
  have nodes := forall_mem_nodes (fun t => wellSorted_children t) sorted
  unfold Literals.ofConjuncts
  have start : Literals.InRange ⟨[], []⟩ := ⟨fun _ h => nomatch h⟩
  generalize (⟨[], []⟩ : Literals) = ls at start
  generalize Term.nodes ts = ns at nodes
  induction ns generalizing ls with
  | nil => exact start
  | cons n ns ih =>
    obtain ⟨hn, hns⟩ := List.forall_mem_cons.1 nodes
    exact ih _ (start.add hn) hns

theorem mem_sample_go {α : Type} {same : α → α → Bool} {keep : α → Bool} {size : Nat} {a : α}
    {items : List α} : {taken : List α} → a ∈ sample.go same keep size taken items →
      a ∈ taken ∨ a ∈ items := by
  induction items with
  | nil => exact fun h => .inl (List.mem_reverse.1 h)
  | cons b rest ih =>
    intro taken h
    simp only [sample.go] at h
    have widened : ∀ x, x ∈ (if keep b && !taken.any (same b) then b :: taken else taken) →
        x ∈ taken ∨ x ∈ b :: rest := by
      intro x hx
      split at hx
      · rcases List.mem_cons.1 hx with rfl | hx
        · exact .inr List.mem_cons_self
        · exact .inl hx
      · exact .inl hx
    generalize (if keep b && !taken.any (same b) then b :: taken else taken) = kept at h widened
    split at h
    · exact widened a (List.mem_reverse.1 h)
    · rcases ih h with taken | rest
      · exact widened a taken
      · exact .inr (List.mem_cons_of_mem _ rest)

/-- A sample holds only items that it was taken from. -/
theorem mem_of_mem_sample {α : Type} {same : α → α → Bool} {keep : α → Bool} {size : Nat} {a : α}
    {items : List α} (h : a ∈ sample same keep size items) : a ∈ items :=
  (mem_sample_go h).resolve_left fun h => nomatch h

theorem bitsCandidates_hasSort {w : Nat} (width : w ≤ 64) (lo hi : Int) (ls : Literals) :
    ∀ v ∈ (bitsCandidates w lo hi ls).1, v.hasSort (.bitVec w) = true := by
  intro v hv
  unfold bitsCandidates at hv
  split at hv
  · obtain ⟨n, -, rfl⟩ := List.mem_map.1 hv
    exact Value.ofInt_hasSort n width
  · obtain ⟨n, -, rfl⟩ := List.mem_map.1 hv
    exact Value.ofInt_hasSort n width

theorem doubleCandidates_inRange {ls : Literals} (range : ls.InRange) :
    ∀ x ∈ doubleCandidates ls, IsDouble x := by
  intro x hx
  unfold doubleCandidates at hx
  refine (?_ : ∀ y ∈ _, IsDouble y) x (mem_of_mem_sample hx)
  have number : ∀ n, IsDouble (Precision.double.ofInt n) := fun n => Precision.ofInt_lt n
  have infinity : IsDouble Precision.double.infinity := by
    unfold IsDouble
    decide
  refine List.forall_mem_append.2 ⟨List.forall_mem_append.2 ⟨List.forall_mem_append.2 ⟨?_, ?_⟩, ?_⟩, ?_⟩
  · refine List.forall_mem_cons.2 ⟨Nat.two_pow_pos _, List.forall_mem_cons.2 ⟨number 1, ?_⟩⟩
    exact List.forall_mem_singleton.2 (number (-1))
  · intro y hy
    obtain ⟨z, hz, near⟩ := List.mem_flatMap.1 hy
    refine (?_ : ∀ u ∈ _, IsDouble u) y near
    refine List.forall_mem_cons.2 ⟨range.doubles z hz, List.forall_mem_cons.2 ⟨?_, ?_⟩⟩
    · exact Precision.add_lt (range.doubles z hz) (number 1)
    · exact List.forall_mem_singleton.2 (Precision.sub_lt (range.doubles z hz) (number 1))
  · intro y hy
    obtain ⟨n, -, rfl⟩ := List.mem_map.1 hy
    exact number n
  · refine List.forall_mem_cons.2 ⟨Precision.div_lt (number 1) (number 2),
      List.forall_mem_cons.2 ⟨infinity, List.forall_mem_cons.2 ⟨Precision.neg_lt infinity, ?_⟩⟩⟩
    exact List.forall_mem_singleton.2 Precision.positiveNaN_lt

theorem floatCandidates_hasSort {f : FloatFormat} (valued : (TermSort.float f).valued = true)
    {ls : Literals} (range : ls.InRange) :
    ∀ v ∈ floatCandidates f ls, v.hasSort (.float f) = true := by
  intro v hv
  obtain ⟨x, hx, rfl⟩ := List.mem_map.1 hv
  have lt := doubleCandidates_inRange range x hx
  obtain ⟨p, hp, rfl⟩ := precision_of_valued valued
  cases p with
  | single => exact Value.hasSort_float (Precision.convert_lt lt)
  | double => exact Value.hasSort_float lt

theorem elementCandidates_hasSort {ls : Literals} (range : ls.InRange) {s : TermSort}
    (valued : s.valued = true) : ∀ v ∈ elementCandidates ls s, v.hasSort s = true := by
  induction s with
  | bool =>
    intro v hv
    simp only [elementCandidates, List.mem_cons, List.not_mem_nil, or_false] at hv
    rcases hv with rfl | rfl <;> rfl
  | bitVec w => exact bitsCandidates_hasSort (width_le valued) _ _ ls
  | float f => exact floatCandidates_hasSort valued range
  | array i e _ ih =>
    intro v hv
    obtain ⟨d, hd, rfl⟩ := List.mem_map.1 hv
    simp only [TermSort.valued, Bool.and_eq_true] at valued
    exact ih valued.2 d (List.mem_of_mem_take hd)

/-- The facts speak of values of the sorts that the constants have. -/
structure Facts.Sorted (f : Facts) (xs : List (String × TermSort)) : Prop where
  pins : ∀ {name v}, f.pins.get? name = some v → ∀ s, (name, s) ∈ xs → v.hasSort s = true
  elements : ∀ {name es}, f.elements.get? name = some es → ∀ i e, (name, .array i e) ∈ xs →
    ∀ x ∈ es, x.1.hasSort i = true ∧ x.2.hasSort e = true

/-- No constant has two sorts. -/
def OneSorted (xs : List (String × TermSort)) : Prop :=
  ∀ name s t, (name, s) ∈ xs → (name, t) ∈ xs → s = t

namespace Facts

variable {f : Facts} {xs : List (String × TermSort)} {name : String} {v : Value}

theorem Sorted.pin (h : f.Sorted xs) (sorted : ∀ s, (name, s) ∈ xs → v.hasSort s = true) :
    (f.pin name v).Sorted xs := by
  unfold Facts.pin
  split
  · split
    · exact h
    · exact ⟨h.pins, h.elements⟩
  · refine ⟨fun {name' w} found => ?_, h.elements⟩
    rw [Table.get?_insert] at found
    split at found
    next same =>
      cases found
      exact beq_iff_eq.1 same ▸ sorted
    next => exact h.pins found

theorem Sorted.element {k : Value} (h : f.Sorted xs)
    (sorted : ∀ i e, (name, .array i e) ∈ xs → k.hasSort i = true ∧ v.hasSort e = true) :
    (f.element name k v).Sorted xs := by
  unfold Facts.element
  dsimp only
  split
  · split
    · exact h
    · exact ⟨h.pins, h.elements⟩
  · refine ⟨h.pins, fun {name' es} found i e hx => ?_⟩
    rw [Table.get?_insert] at found
    split at found
    next same =>
      cases found
      cases beq_iff_eq.1 same
      refine List.forall_mem_append.2 ⟨?_, List.forall_mem_singleton.2 (sorted i e hx)⟩
      cases known : f.elements.get? name with
      | none => exact List.forall_mem_nil _
      | some es => exact h.elements known i e hx
    next => exact h.elements found i e hx

theorem Sorted.atLeast (h : f.Sorted xs) (n : Int) : (f.atLeast name n).Sorted xs := by
  unfold Facts.atLeast
  split <;> exact ⟨h.pins, h.elements⟩

theorem Sorted.atMost (h : f.Sorted xs) (n : Int) : (f.atMost name n).Sorted xs := by
  unfold Facts.atMost
  split <;> exact ⟨h.pins, h.elements⟩

theorem Sorted.learnEq (h : f.Sorted xs) {lit : Term} (lits : lit.wellSorted TermSort.valued = true)
    (sorts : ∀ s, (name, s) ∈ xs → s = lit.sort) (positive : Bool) :
    (f.learnEq name lit positive).Sorted xs := by
  unfold Facts.learnEq
  split
  · exact h
  next v value =>
    have sort : ∀ s, (name, s) ∈ xs → v.hasSort s = true := fun s hs =>
      sorts s hs ▸ literal?_hasSort value lits
    split
    · dsimp only
      refine Sorted.pin ?_ sort
      split
      · exact (h.atLeast _).atMost _
      · exact h
    · exact ⟨h.pins, h.elements⟩

theorem Sorted.learnCompare (h : f.Sorted xs) (op : Bits.CompareOp) (a b : Term) (positive : Bool) :
    (f.learnCompare op a b positive).Sorted xs := by
  have bound : ∀ name op n, (f.learnBound name op n).Sorted xs := by
    intro name op n
    unfold Facts.learnBound
    split
    · exact h.atMost _
    · exact h.atMost _
    · exact h.atLeast _
    · exact h.atLeast _
  unfold Facts.learnCompare
  dsimp only
  split
  · exact bound ..
  · exact bound ..
  · exact h

theorem Sorted.learnElement (h : f.Sorted xs) (one : OneSorted xs) {l : Label} {array index lit : Term}
    (sorted : (binary l .select array index).wellSorted TermSort.valued = true)
    (known : (binary l .select array index).vars ⊆ xs) (lits : lit.wellSorted TermSort.valued = true)
    (sorts : (binary l .select array index).sort = lit.sort) :
    (f.learnElement array index lit).Sorted xs := by
  unfold Facts.learnElement
  split
  next name i v isVar hi hv =>
    obtain ⟨l', s, rfl⟩ := var?_eq_some isVar
    refine h.element fun j e hx => ?_
    have same := one name _ s hx (known (by simp [vars]))
    subst same
    simp only [wellSorted, BinaryOp.accepts, Bool.and_eq_true, sort, Atom.sort, beq_iff_eq] at sorted
    have element := literal?_hasSort hv lits
    rw [← sorts] at element
    have position := literal?_hasSort hi sorted.2
    rw [← (TermSort.array.inj sorted.1.1.2).1] at position
    exact ⟨position, element⟩
  · exact h

theorem Sorted.learnEquation (h : f.Sorted xs) (one : OneSorted xs) {l : Label} {a b : Term}
    (sorted : (binary l .eq a b).wellSorted TermSort.valued = true)
    (known : (binary l .eq a b).vars ⊆ xs) (positive : Bool) :
    (f.learnEquation a b positive).Sorted xs := by
  simp only [wellSorted, BinaryOp.accepts, Bool.and_eq_true, beq_iff_eq] at sorted
  obtain ⟨⟨⟨-, sorts⟩, ha⟩, hb⟩ := sorted
  have left : a.vars ⊆ xs := fun x hx => known (List.mem_append_left _ hx)
  have right : b.vars ⊆ xs := fun x hx => known (List.mem_append_right _ hx)
  unfold Facts.learnEquation
  split
  next isVar _ =>
    obtain ⟨l', s, rfl⟩ := var?_eq_some isVar
    exact h.learnEq hb (fun t ht => (one _ t s ht (left (by simp [vars]))).trans sorts) positive
  next isVar _ _ =>
    obtain ⟨l', s, rfl⟩ := var?_eq_some isVar
    exact h.learnEq ha (fun t ht => (one _ t s ht (right (by simp [vars]))).trans sorts.symm) positive
  · split
    · split
      · split
        · exact h.learnElement one ha left hb sorts
        · exact h
      · split
        · exact h.learnElement one hb right ha sorts.symm
        · exact h
      · exact h
    · exact h

theorem Sorted.learn (h : f.Sorted xs) (one : OneSorted xs) {t : Term} {positive : Bool}
    (sorted : t.wellSorted TermSort.valued = true) (known : t.vars ⊆ xs) :
    (f.learn positive t).Sorted xs := by
  fun_induction Facts.learn f positive t with
  | case1 positive l a ih =>
    simp only [wellSorted, Bool.and_eq_true] at sorted
    exact ih sorted.2 known
  | case2 positive l name =>
    exact h.pin fun s hs => (one name s .bool hs (known (by simp [vars]))) ▸ rfl
  | case3 positive l a b => exact h.learnEquation one sorted known positive
  | case4 positive l op a b => exact h.learnCompare op a b positive
  | case5 => exact h

theorem ofConjuncts_sorted (one : OneSorted xs) {vars : Table String TermSort} {ts : List Term}
    (sorted : ∀ t ∈ ts, t.wellSorted TermSort.valued = true) (known : ∀ t ∈ ts, t.vars ⊆ xs) :
    (Facts.ofConjuncts vars ts).Sorted xs := by
  have start : (Facts.initial vars).Sorted xs := ⟨(fun h => nomatch h), fun h => nomatch h⟩
  unfold Facts.ofConjuncts
  generalize Facts.initial vars = f at start
  induction ts generalizing f with
  | nil => exact start
  | cons t ts ih =>
    obtain ⟨st, sts⟩ := List.forall_mem_cons.1 sorted
    obtain ⟨kt, kts⟩ := List.forall_mem_cons.1 known
    exact ih sts kts _ (start.learn one st kt)

end Facts

theorem storeAll_hasSorts {i e : TermSort} {es : List (Value × Value)} {a : ArrayValue}
    (ha : a.hasSorts i e = true) (hes : ∀ x ∈ es, x.1.hasSort i = true ∧ x.2.hasSort e = true) :
    (es.foldl (fun a x => .store a x.1 x.2) a).hasSorts i e = true := by
  induction es generalizing a with
  | nil => exact ha
  | cons x es ih =>
    obtain ⟨hx, hes⟩ := List.forall_mem_cons.1 hes
    refine ih ?_ hes
    simp only [ArrayValue.hasSorts, Bool.and_eq_true]
    exact ⟨⟨ha, hx.1⟩, hx.2⟩

/-- Candidates are of the constant's sort. -/
theorem Domain.ofFacts_hasSort {f : Facts} {xs : List (String × TermSort)} (sorted : f.Sorted xs)
    {ls : Literals} (range : ls.InRange) {name : String} {s : TermSort} (known : (name, s) ∈ xs)
    (valued : s.valued = true) : ∀ v ∈ (Domain.ofFacts f ls name s).values, v.hasSort s = true := by
  intro v hv
  unfold Domain.ofFacts at hv
  split at hv
  next w pinned =>
    cases List.mem_singleton.1 hv
    exact sorted.pins pinned s known
  next =>
    have hv := (List.mem_filter.1 hv).1
    cases s with
    | bool =>
      simp only [candidates, List.mem_cons, List.not_mem_nil, or_false] at hv
      rcases hv with rfl | rfl <;> rfl
    | bitVec w => exact bitsCandidates_hasSort (width_le valued) _ _ ls v hv
    | float format =>
      simp only [candidates] at hv
      exact floatCandidates_hasSort valued range v hv
    | array i e =>
      obtain ⟨d, hd, rfl⟩ := List.mem_map.1 hv
      simp only [TermSort.valued, Bool.and_eq_true] at valued
      refine storeAll_hasSorts (elementCandidates_hasSort range valued.2 d (List.mem_of_mem_take hd)) ?_
      cases found : f.elements.get? name with
      | none => exact List.forall_mem_nil _
      | some es => exact sorted.elements found i e known

/-- The search binds each constant to one of its candidates. -/
theorem search_binds {ls : List Level} {env : Assignment} {budget : Nat} {model : Assignment}
    (h : search ls env budget = .found model) (distinct : (ls.map (·.domain.name)).Nodup) :
    ∀ d ∈ ls.map (·.domain), ∃ v ∈ d.values, model.get? d.name = some v := by
  induction ls generalizing env budget with
  | nil => exact fun _ h => nomatch h
  | cons first ls ih =>
    obtain ⟨v, hv, budget', -, found⟩ := tryValues_found h
    obtain ⟨once, distinct⟩ := List.nodup_cons.1 distinct
    refine List.forall_mem_cons.2 ⟨⟨v, hv, ?_⟩, ih found distinct⟩
    rw [search_frame found once, Table.get?_insert, if_pos BEq.rfl]

theorem levels_domains (domains : List Domain) (conjuncts : List Term) :
    (levels domains conjuncts).map (·.domain) = domains := by
  apply List.ext_getElem?
  intro i
  rw [List.getElem?_map, getElem?_levels, Option.map_map]
  exact Option.map_id'

/-- Domains of the constants of conjuncts. -/
def domainsOf (conjuncts : List Term) : List Domain :=
  (freeVars conjuncts).entries.map fun e => Domain.ofFacts
    (Facts.ofConjuncts (freeVars conjuncts) conjuncts) (Literals.ofConjuncts conjuncts) e.1 e.2

theorem domainsOf_names (conjuncts : List Term) :
    (domainsOf conjuncts).map (·.name) = (freeVars conjuncts).keys := by
  unfold domainsOf
  rw [List.map_map]
  exact List.map_congr_left fun e _ => Domain.ofFacts_name ..

theorem domains_binds {budget : Nat} {conjuncts : List Term} {model : Assignment}
    (sorted : ∀ t ∈ conjuncts, t.wellSorted TermSort.valued = true)
    (one : OneSorted (varsAll conjuncts))
    (found : search (levels (domainsOf conjuncts) conjuncts) {} budget = .found model) :
    ∀ x ∈ varsAll conjuncts, ∃ v, model.get? x.1 = some v ∧ v.hasSort x.2 = true := by
  have facts : (Facts.ofConjuncts (freeVars conjuncts) conjuncts).Sorted (varsAll conjuncts) :=
    Facts.ofConjuncts_sorted one sorted fun t ht x hx => mem_varsAll.2 ⟨t, ht, hx⟩
  have distinct : ((levels (domainsOf conjuncts) conjuncts).map (·.domain.name)).Nodup := by
    rw [levels_names, domainsOf_names]
    exact freeVars_distinct conjuncts
  have binds := search_binds found distinct
  rw [levels_domains] at binds
  intro x hx
  obtain ⟨s, hs⟩ := freeVars_of_mem_varsAll hx
  obtain rfl : s = x.2 := one x.1 s x.2 (mem_varsAll_of_freeVars hs) hx
  obtain ⟨v, hv, bound⟩ := binds _ (List.mem_map.2 ⟨_, Table.mem_of_get? hs, rfl⟩)
  rw [Domain.ofFacts_name] at bound
  obtain ⟨t, ht, mem⟩ := mem_varsAll.1 hx
  exact ⟨v, bound, Domain.ofFacts_hasSort facts (Literals.ofConjuncts_inRange sorted) hx
    (admissible_of_mem_vars (sorted t ht) x mem) v hv⟩

mutual

theorem mem_varsAll_openConjunction {x : String × TermSort} : (t : Term) → (others : List Term) →
    (x ∈ varsAll (openConjunction t others) ↔ x ∈ t.vars ∨ x ∈ varsAll others)
  | .junction _ .and items, others => mem_varsAll_openConjunctions items others
  | .junction _ .or _, _ | .leaf _ _, _ | .unary _ _ _, _ | .binary _ _ _ _, _
  | .ternary _ _ _ _ _, _ => by
    rw [openConjunction, varsAll, List.mem_append]
    all_goals simp

/-- Opening conjunctions keeps the constants. -/
theorem mem_varsAll_openConjunctions {x : String × TermSort} : (ts : List Term) →
    (others : List Term) →
    (x ∈ varsAll (openConjunctions ts others) ↔ x ∈ varsAll ts ∨ x ∈ varsAll others)
  | [], others => by simp [openConjunctions, varsAll]
  | t :: ts, others => by
    rw [openConjunctions, mem_varsAll_openConjunction t, mem_varsAll_openConjunctions ts others, varsAll,
      List.mem_append, or_assoc]

end

theorem wellSorted_openConjunctions {constraints : List Term}
    (sorted : ∀ t ∈ constraints, t.wellSorted TermSort.valued = true) :
    ∀ t ∈ openConjunctions constraints [], t.wellSorted TermSort.valued = true :=
  forall_openConjunctions (fun _ _ h t ht => (wellSortedBools_iff.1 h t ht).2) constraints [] sorted
    fun _ h => nomatch h

/-- The constants of the conjuncts that are decided are the constants of the constraints. -/
theorem mem_varsAll_kept {constraints : List Term} {x : String × TermSort} :
    x ∈ varsAll ((openConjunctions constraints []).filter fun t => !(t.bool? == some true)) ↔
      x ∈ varsAll constraints := by
  have opened := mem_varsAll_openConjunctions (x := x) constraints []
  simp only [varsAll, List.not_mem_nil, or_false] at opened
  rw [← opened, mem_varsAll, mem_varsAll]
  refine exists_congr fun t => ?_
  rw [List.mem_filter, and_assoc, and_congr_right_iff]
  intro _
  refine ⟨And.right, fun hx => ⟨?_, hx⟩⟩
  cases literal : t.bool? with
  | none => rfl
  | some b =>
    obtain ⟨l, rfl⟩ := bool?_eq_some literal
    cases hx

/-- A model that is returned for well-sorted constraints binds every constant to a value of its sort. -/
theorem check_sat_wellSorted {budget : Nat} {constraints : List Term} {model : Assignment}
    (sorted : ∀ t ∈ constraints, t.wellSorted TermSort.valued = true)
    (one : OneSorted (varsAll constraints)) (h : check budget constraints = .sat model) :
    model.WellSorted constraints := by
  simp only [check] at h
  split at h
  · cases h
  · have sorted' : ∀ t ∈ (openConjunctions constraints []).filter fun t => !(t.bool? == some true),
        t.wellSorted TermSort.valued = true :=
      fun t ht => wellSorted_openConjunctions sorted t (List.mem_filter.1 ht).1
    intro x hx
    rw [← mem_varsAll_kept] at hx
    split at h
    next closed =>
      obtain ⟨s, hs⟩ := freeVars_of_mem_varsAll hx
      have mem := Table.mem_of_get? hs
      rw [List.isEmpty_iff.1 closed] at mem
      cases mem
    next =>
      simp only [decideOpen] at h
      split at h
      · cases h
      · split at h
        · split at h <;> cases h
        · split at h
          next found =>
            cases h
            exact domains_binds sorted' (fun name s t hs ht =>
              one name s t (mem_varsAll_kept.1 hs) (mem_varsAll_kept.1 ht)) found x hx
          next => split at h <;> cases h
          next => cases h

end ModelSearch
end SinkReach
