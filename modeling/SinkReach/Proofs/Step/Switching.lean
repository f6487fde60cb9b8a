import SinkReach.Proofs.Step.Next
import SinkReach.Proofs.Step.Effect
import SinkReach.Proofs.Symbolic.Arithmetic
import SinkReach.Proofs.Symbolic.Contract

/-!
Conditions of switches. Every case tells whether the key is its number, and the default tells whether the
key is none of the numbers; so under each valuation the cases that hold all lead to one target, which is the
one that the number of the key is looked up to.
-/
namespace SinkReach

namespace SwitchTable

/-- Target of a number: that at its place in the range or beside it among the values, else the default. -/
def jump (default : InstrId) (n : Int) : SwitchTable → InstrId
  | table low high targets => if low ≤ n ∧ n ≤ high then targets[(n - low).toNat]?.getD default else default
  | lookup values targets => ((values.zip targets).lookup n).getD default

theorem jump_mem (default : InstrId) (n : Int) (t : SwitchTable) : t.jump default n ∈ t.targets ++ [default] := by
  have last : default ∈ t.targets ++ [default] := List.mem_append_right _ List.mem_cons_self
  cases t with
  | table low high targets =>
    rw [jump]
    split
    · cases found : targets[(n - low).toNat]? with
      | none => exact last
      | some j => exact List.mem_append_left _ (List.mem_of_getElem? found)
    · exact last
  | lookup values targets =>
    rw [jump]
    cases found : (values.zip targets).lookup n with
    | none => exact last
    | some j =>
      obtain ⟨before, after, split, -⟩ := List.lookup_eq_some_iff.1 found
      have listed : (n, j) ∈ values.zip targets := split ▸ List.mem_append_right _ List.mem_cons_self
      exact List.mem_append_left _ (List.of_mem_zip listed).2

/-- Numbers of a range from the least on. -/
def range (low : Int) (size : Nat) : List Int := (List.range size).map fun (i : Nat) => low + i

theorem range_succ (low : Int) (size : Nat) : range low (size + 1) = low :: range (low + 1) size := by
  unfold range
  rw [List.range_succ_eq_map, List.map_cons, List.map_map]
  refine congrArg₂ List.cons (by simp) (List.map_congr_left fun i _ => ?_)
  simp only [Function.comp_apply]
  push_cast
  omega

theorem mem_range {low n : Int} {size : Nat} : n ∈ range low size ↔ low ≤ n ∧ n < low + size := by
  constructor
  · intro mem
    obtain ⟨i, less, rfl⟩ := List.mem_map.1 mem
    have := List.mem_range.1 less
    omega
  · rintro ⟨least, less⟩
    exact List.mem_map.2 ⟨(n - low).toNat, List.mem_range.2 (by omega), by omega⟩

theorem nodup_range (low : Int) (size : Nat) : (range low size).Nodup :=
  List.nodup_range.map fun i j (same : low + (i : Int) = low + j) => by omega

theorem lookup_range (low n : Int) (targets : List InstrId) :
    ((range low targets.length).zip targets).lookup n =
      if low ≤ n then targets[(n - low).toNat]? else none := by
  induction targets generalizing low with
  | nil => simp
  | cons t targets ih =>
    rw [List.length_cons, range_succ, List.zip_cons_cons, List.lookup_cons, ih]
    by_cases same : n = low
    · subst same
      simp
    · rw [beq_false_of_ne same]
      by_cases less : low ≤ n
      · have place : (n - low).toNat = (n - (low + 1)).toNat + 1 := by omega
        rw [if_pos (by omega), if_pos less, place, List.getElem?_cons_succ]
      · rw [if_neg (by omega), if_neg less]

theorem lookup_range_isNone {low high n : Int} {targets : List InstrId}
    (size : high - low + 1 = targets.length) :
    (((range low targets.length).zip targets).lookup n).isNone = (decide (n < low) || decide (n > high)) := by
  rw [lookup_range]
  by_cases least : low ≤ n
  · rw [if_pos least, decide_eq_false (by omega : ¬ n < low), Bool.false_or, Bool.eq_iff_iff,
      Option.isNone_iff_eq_none, List.getElem?_eq_none_iff, decide_eq_true_iff]
    omega
  · rw [if_neg least, decide_eq_true (by omega : n < low)]
    rfl

/-- The range is one of numbers and targets side by side. -/
theorem jump_table {low high : Int} {targets : List InstrId} (size : high - low + 1 = targets.length)
    (default : InstrId) (n : Int) : (table low high targets).jump default n =
      (((range low targets.length).zip targets).lookup n).getD default := by
  rw [jump, lookup_range]
  by_cases least : low ≤ n
  · rw [if_pos least]
    by_cases greatest : n ≤ high
    · rw [if_pos ⟨least, greatest⟩]
    · rw [if_neg (by omega), List.getElem?_eq_none (by omega)]
      rfl
  · rw [if_neg (by omega), if_neg least]
    rfl

end SwitchTable

namespace Term

variable {ρ : Valuation} {l : Label} {ts : List Term}

/-- A disjunction of truth values is true if and only if one of its items is. -/
theorem denote_orAll_iff (bools : ∀ t ∈ ts, ∃ r, t.denote ρ = some (.bool r)) :
    (orAll l ts).denote ρ = some (.bool true) ↔ ∃ t ∈ ts, t.denote ρ = some (.bool true) := by
  refine ⟨exists_of_denote_orAll, ?_⟩
  rintro ⟨t, mem, true⟩
  rw [orAll, denote_join bools]
  induction ts with
  | nil => cases mem
  | cons u ts ih =>
    obtain ⟨⟨r, value⟩, rest⟩ := List.forall_mem_cons.1 bools
    rw [denoteItems_cons value]
    cases r with
    | true => rfl
    | false =>
      rcases List.mem_cons.1 mem with rfl | mem
      · cases value.symm.trans true
      · exact ih rest mem

end Term

namespace Effect

open Run (Ensures)

variable {ρ : Valuation} {n : Int} {values : List Int} {targets : List InstrId} {hits : List Term}
  {entries : List (Int × InstrId)} {cases others : List (Term × InstrId)} {default target : InstrId}

/-- The case tells whether the number is that of the entry, and leads where the entry does. -/
def TellsEntry (ρ : Valuation) (n : Int) (e : Int × InstrId) (c : Term × InstrId) : Prop :=
  c.1.denote ρ = some (.bool (n = e.1)) ∧ c.2 = e.2

theorem TellsEntry.misses {e : Int × InstrId} {c : Term × InstrId} (h : TellsEntry ρ n e c)
    (other : (n == e.1) = false) : c.1.denote ρ = some (.bool false) := by
  rw [h.1, decide_eq_false (ne_of_beq_false other)]

theorem tellsEntry_zip (tells : List.Forall₂ (fun v t => Term.denote ρ t = some (.bool (n = v))) values hits) :
    List.Forall₂ (TellsEntry ρ n) (values.zip targets) (hits.zip targets) := by
  induction tells generalizing targets with
  | nil => exact .nil
  | cons first _ ih =>
    cases targets with
    | nil => exact .nil
    | cons j targets => exact .cons ⟨first, rfl⟩ ih

/-- Every case is false. -/
def Missed (ρ : Valuation) (cases : List (Term × InstrId)) : Prop :=
  ∀ c ∈ cases, c.1.denote ρ = some (.bool false)

/-- Each case has a truth value, and those that are true lead to the target. -/
structure Chosen (ρ : Valuation) (cases : List (Term × InstrId)) (target : InstrId) : Prop where
  bools : ∀ c ∈ cases, ∃ r, c.1.denote ρ = some (.bool r)
  holds : ∃ c ∈ cases, c.1.denote ρ = some (.bool true)
  leads : ∀ c ∈ cases, c.1.denote ρ = some (.bool true) → c.2 = target

theorem Chosen.single {c : Term × InstrId} (truth : c.1.denote ρ = some (.bool true)) : Chosen ρ [c] c.2 where
  bools := List.forall_mem_singleton.2 ⟨true, truth⟩
  holds := ⟨c, List.mem_cons_self, truth⟩
  leads := List.forall_mem_singleton.2 fun _ => rfl

theorem Chosen.perm (h : Chosen ρ cases target) (same : cases.Perm others) : Chosen ρ others target := by
  constructor
  · intro c mem
    exact h.bools c (same.mem_iff.2 mem)
  · obtain ⟨c, mem, truth⟩ := h.holds
    exact ⟨c, same.mem_iff.1 mem, truth⟩
  · intro c mem truth
    exact h.leads c (same.mem_iff.2 mem) truth

/-- Cases that are false change nothing, behind the others or before them. -/
theorem Chosen.append (h : Chosen ρ cases target) (missed : Missed ρ others) : Chosen ρ (cases ++ others) target := by
  constructor
  · intro c mem
    rcases List.mem_append.1 mem with mem | mem
    · exact h.bools c mem
    · exact ⟨false, missed c mem⟩
  · obtain ⟨c, mem, truth⟩ := h.holds
    exact ⟨c, List.mem_append_left _ mem, truth⟩
  · intro c mem truth
    rcases List.mem_append.1 mem with mem | mem
    · exact h.leads c mem truth
    · cases (missed c mem).symm.trans truth

theorem Missed.append (missed : Missed ρ cases) (h : Chosen ρ others target) : Chosen ρ (cases ++ others) target :=
  (h.append missed).perm List.perm_append_comm

theorem missed_of_lookup (tells : List.Forall₂ (TellsEntry ρ n) entries cases) (missing : entries.lookup n = none) :
    Missed ρ cases := by
  induction tells with
  | nil => exact List.forall_mem_nil _
  | @cons e c entries cases first _ ih =>
    rw [List.lookup_cons] at missing
    split at missing
    next => cases missing
    next other =>
      exact List.forall_mem_cons.2 ⟨first.misses other, ih missing⟩

/-- The case of the entry that has the number is the only one that is true. -/
theorem chosen_of_lookup (tells : List.Forall₂ (TellsEntry ρ n) entries cases)
    (nodup : (entries.map (·.1)).Nodup) (found : entries.lookup n = some target) : Chosen ρ cases target := by
  induction tells with
  | nil => cases found
  | @cons e c entries cases first rest ih =>
    obtain ⟨fresh, nodup⟩ := List.nodup_cons.1 nodup
    rw [List.lookup_cons] at found
    split at found
    next same =>
      obtain rfl := eq_of_beq same
      cases found
      have missing : entries.lookup e.1 = none := by
        apply List.lookup_eq_none_iff.2
        intro p mem
        have differ : e.1 ≠ p.1 := fun same => fresh (List.mem_map.2 ⟨p, mem, same.symm⟩)
        simpa using differ
      have truth : c.1.denote ρ = some (.bool true) := by rw [first.1, decide_eq_true rfl]
      rw [← first.2]
      exact (Chosen.single truth).append (missed_of_lookup rest missing)
    next other =>
      have missed : Missed ρ [c] := List.forall_mem_singleton.2 (first.misses other)
      exact missed.append (ih nodup found)

/-- That none of the cases is true tells whether no entry has the number. -/
theorem denote_noneOf {l : Label} (tells : List.Forall₂ (TellsEntry ρ n) entries cases)
    (nodup : (entries.map (·.1)).Nodup) :
    (Term.andAll l ((cases.map (·.1)).zipIdx.map fun (t, i) => .not (l + 1 + i) t)).denote ρ =
      some (.bool (entries.lookup n).isNone) := by
  have items (t : Term) (mem : t ∈ (cases.map (·.1)).zipIdx.map fun (t, i) => Term.not (l + 1 + i) t) :
      ∃ c ∈ cases, ∃ l', t = .not l' c.1 := by
    obtain ⟨⟨u, i⟩, listed, rfl⟩ := List.mem_map.1 mem
    obtain ⟨c, hc, rfl⟩ := List.mem_map.1 (List.mem_of_getElem? (List.mem_zipIdx_iff_getElem?.1 listed))
    exact ⟨c, hc, _, rfl⟩
  cases found : entries.lookup n with
  | none =>
    refine Term.denote_andAll_iff.2 fun t mem => ?_
    obtain ⟨c, hc, l', rfl⟩ := items t mem
    exact Term.denote_not_iff.2 (missed_of_lookup tells found c hc)
  | some target =>
    obtain ⟨bools, ⟨c, hc, holds⟩, -⟩ := chosen_of_lookup tells nodup found
    refine Term.denote_andAll_eq_false (fun t mem => ?_) fun models => ?_
    · obtain ⟨c', hc', l', rfl⟩ := items t mem
      obtain ⟨r, truth⟩ := bools c' hc'
      exact ⟨!r, Term.denote_not_iff.2 (by rwa [Bool.not_not])⟩
    · have all : Term.denote ρ (.andAll l ((cases.map (·.1)).zipIdx.map fun (t, i) => .not (l + 1 + i) t)) =
          some (.bool true) := Term.denote_andAll_iff.2 models
      exact Term.excludes_none (List.mem_map_of_mem hc) ρ holds all

/-- With a default that is true where no entry has the number, one target is chosen. -/
theorem chosen_of_entries (tells : List.Forall₂ (TellsEntry ρ n) entries cases)
    (nodup : (entries.map (·.1)).Nodup) {otherwise : Term}
    (none : otherwise.denote ρ = some (.bool (entries.lookup n).isNone)) :
    Chosen ρ (cases ++ [(otherwise, default)]) ((entries.lookup n).getD default) := by
  cases found : entries.lookup n with
  | none =>
    rw [found] at none
    exact (missed_of_lookup tells found).append (.single none)
  | some target =>
    rw [found] at none
    exact (chosen_of_lookup tells nodup found).append (List.forall_mem_singleton.2 none)

/-- The disjunction of the cases for a position is true if and only if that is the one chosen. -/
theorem Chosen.denote_orAll_iff (h : Chosen ρ cases target) (l : Label) (i : InstrId) :
    (Term.orAll l ((ExecState.casesAt cases i).map (·.1))).denote ρ = some (.bool true) ↔ i = target := by
  have bools : ∀ t ∈ (ExecState.casesAt cases i).map (·.1), ∃ r, t.denote ρ = some (.bool r) := by
    intro t mem
    obtain ⟨c, listed, rfl⟩ := List.mem_map.1 mem
    exact h.bools c (List.mem_filter.1 listed).1
  rw [Term.denote_orAll_iff bools]
  constructor
  · rintro ⟨t, mem, holds⟩
    obtain ⟨c, listed, rfl⟩ := List.mem_map.1 mem
    obtain ⟨listed, at'⟩ := List.mem_filter.1 listed
    exact (of_decide_eq_true at').symm.trans (h.leads c listed holds)
  · rintro rfl
    obtain ⟨c, mem, holds⟩ := h.holds
    have listed : c ∈ ExecState.casesAt cases i :=
      List.mem_filter.2 ⟨mem, decide_eq_true (h.leads c mem holds)⟩
    exact ⟨c.1, List.mem_map_of_mem listed, holds⟩

section Keys

variable {ρ : Valuation} {kind : IntegerTy} {a : Term} {n : Int} (sorted : a.OfSort kind.ty.sort)
  (holds : kind.Holds n) (value : a.denote ρ = some (.ofInt n kind.width))
include sorted holds value

/-- A test of a key has the truth value of the comparison of its number. -/
theorem ensures_keyTest_denote (op : Operator) (test : op.isKeyTest = true) {v : Int} (int : Bits.isInt v = true) :
    (keyTest (.primitive kind.ty a) op v).Ensures (fun _ => True) Fault.Any
      fun t => t.denote ρ = some (op.onNumbers (kind.promoted .int).width n v) := by
  have inRange : IntegerTy.int.Holds v := by
    unfold Bits.isInt at int
    obtain ⟨least, greatest⟩ := of_decide_eq_true int
    have bounds : -2 ^ (32 - 1) ≤ v ∧ v < 2 ^ (32 - 1) := by omega
    exact bounds
  obtain ⟨noDivision, boolean⟩ : op.isDivision = false ∧ ∀ k, op.resultTy k = .boolean := by
    cases op with
    | eq | lt | gt => exact ⟨rfl, fun _ => rfl⟩
    | _ => cases test
  have defined : op.isDivision = true → v ≠ 0 := fun division => nomatch noDivision.symm.trans division
  refine .bind (P := fun x => ∃ l, x = .primitive .int (.ofInt l v 32)) ?_ fun x ⟨l, number⟩ => ?_
  · exact .bind .freshLabel fun l _ => .pure ⟨l, rfl⟩
  subst number
  have constant : (Term.ofInt l v 32).OfSort IntegerTy.int.ty.sort := .ofInt v (by decide) (by decide)
  refine .bind (P := fun x => ∃ r, x = .primitive .boolean r ∧ r.OfSort .bool ∧
    r.denote ρ = some (op.onNumbers (kind.promoted .int).width n v)) ?_ fun x ⟨r, condition, bool, truth⟩ => ?_
  · refine .bind .freshLabel fun l' _ => .lift (fun x result => ?_) fun _ _ => trivial
    obtain ⟨r, compared, bool, truth⟩ := Machine.operate_integers (l := l') (t := .int) sorted constant op
    rw [boolean] at compared bool
    cases compared.symm.trans result
    exact ⟨r, rfl, bool, truth ρ n v holds inRange value rfl defined⟩
  · refine .lift (fun t found => ?_) fun _ _ => trivial
    subst condition
    rw [Machine.condition, if_pos bool.1] at found
    cases found
    exact truth

theorem ensures_keyHits_denote {values : List Int} (ints : ∀ v ∈ values, Bits.isInt v = true) :
    (keyHits (.primitive kind.ty a) values).Ensures (fun _ => True) Fault.Any
      (List.Forall₂ (fun v t => t.denote ρ = some (.bool (n = v))) values) :=
  .mapM_forall₂ fun v mem => ensures_keyTest_denote sorted holds value .eq rfl (ints v mem)

/-- The cases of a switch choose the target that the number of the key jumps to. -/
theorem ensures_switchCases_chosen {table : SwitchTable} (proper : table.isProper = true) (default : InstrId) :
    (switchCases (.primitive kind.ty a) table).Ensures (fun _ => True) Fault.Any
      fun r => Chosen ρ (r.1 ++ [(r.2, default)]) (table.jump default n) := by
  cases table with
  | table low high targets =>
    obtain ⟨lowInt, highInt⟩ := Bool.and_eq_true_iff.1 proper
    simp only [switchCases]
    split
    · exact .bind (P := fun _ => False) (.throw trivial) fun _ never => never.elim
    next size =>
      have size := Decidable.of_not_not size
      have ints : ∀ v ∈ SwitchTable.range low targets.length, Bits.isInt v = true := by
        intro v mem
        have := SwitchTable.mem_range.1 mem
        unfold Bits.isInt at lowInt highInt ⊢
        rw [decide_eq_true_iff] at lowInt highInt ⊢
        omega
      refine .bind (ensures_keyHits_denote sorted holds value ints) fun hits tells => ?_
      refine .bind (ensures_keyTest_denote sorted holds value .lt rfl lowInt) fun below isBelow => ?_
      refine .bind (ensures_keyTest_denote sorted holds value .gt rfl highInt) fun above isAbove => ?_
      refine .bind .freshLabel fun l _ => .pure ?_
      have distinct : (((SwitchTable.range low targets.length).zip targets).map (·.1)).Nodup := by
        rw [List.map_fst_zip (by simp [SwitchTable.range])]
        exact SwitchTable.nodup_range low _
      rw [SwitchTable.jump_table size]
      refine chosen_of_entries (tellsEntry_zip tells) distinct ?_
      rw [← SwitchTable.range, SwitchTable.lookup_range_isNone size]
      exact Term.denote_or_of_bools isBelow isAbove
  | lookup values targets =>
    obtain ⟨all, nodup⟩ := Bool.and_eq_true_iff.1 proper
    simp only [switchCases]
    split
    · exact .bind (P := fun _ => False) (.throw trivial) fun _ never => never.elim
    next size =>
      have size := Decidable.of_not_not size
      refine .bind (ensures_keyHits_denote sorted holds value (List.all_eq_true.1 all)) fun hits tells => ?_
      refine .bind (P := fun _ => True) (.context fun _ => trivial) fun l _ => .pure ?_
      have distinct : ((values.zip targets).map (·.1)).Nodup := by
        rw [List.map_fst_zip (Nat.le_of_eq size)]
        exact of_decide_eq_true nodup
      have length : hits.length = targets.length := tells.length_eq.symm.trans size
      have entries : List.Forall₂ (TellsEntry ρ n) (values.zip targets) (hits.zip targets) := tellsEntry_zip tells
      refine chosen_of_entries entries distinct ?_
      have otherwise := denote_noneOf (l := l) entries distinct
      rwa [List.map_fst_zip (Nat.le_of_eq length)] at otherwise

end Keys

end Effect
end SinkReach
