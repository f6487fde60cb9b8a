import SinkReach.Proofs.Step.MergeExact
import SinkReach.Proofs.Step.Switching
import SinkReach.Proofs.Symbolic.Conditions
import SinkReach.Proofs.Step.Transition
import SinkReach.Proofs.Typing.Step

/-!
Jumps of a program. From a branch or a switch it goes where the data of the operands lead, as the machine finds
them, and the condition of the branch and the cases of the switch say the same, unless a branch puts a truth value
beside a number that is neither zero nor one.
-/
namespace SinkReach

/-- Operands whose data decide a condition. -/
def Rvalue.operands : Rvalue → List Operand
  | use a => [a]
  | binary _ a b _ => [a, b]
  | _ => []

/-- Whether the machine takes a branch, by the data of the operands of its condition. -/
def Rvalue.taken? : Rvalue → List Datum → Option Bool
  | use _, [.integer _ n] => some (n ≠ 0)
  | binary op _ _ _, [d, e] => (op.data? d e).bind Value.truth?
  | _, _ => none

/-- Conditions that the machine decides whatever the data are: truth values, those of static fields and of the elements
of arrays among them, and comparisons, of addresses for equality only. -/
def Rvalue.tests : Rvalue → Bool
  | use _ | staticField _ | arrayElement _ _ _ => true
  | binary op a b _ => op.compares && (op.equates || !a.ty.isReference) && a.ty != .void && b.ty != .void
  | _ => false

namespace Effect

/-- The values that decide where an instruction leads: the condition of a branch and the operands of that, the key
of a switch. -/
inductive Reads (m : Method) (s : SymState) (c : Context) : Instruction → List SymValue → Prop
  | branch {condition : Rvalue} {target : InstrId} {v : SymValue} {vs : List SymValue} {M M' : Machine}
    {c' c'' : Context} : (ofRvalue m condition).Yields (.start s) c v M c' →
    (condition.operands.mapM (ofOperand m)).Yields (.start s) c vs M' c'' →
    Reads m s c (.branch condition target) (v :: vs)
  | switch {key : Operand} {table : SwitchTable} {default : InstrId} {v : SymValue} {M : Machine} {c' : Context} :
    (ofOperand m key).Yields (.start s) c v M c' → Reads m s c (.switch key table default) [v]

/-- Where the program jumps to from an instruction if its unknowns are those assigned. A branch goes to its target
or to the next instruction: by the machine's result on the data of its operands, by the field of an object, or
by what is not modelled, the elements of arrays and the types of objects, as it is assigned. A switch goes where
the number of its key is looked up to. No jump is told for fields and types of null: the machine does not get to read
the ones, and the others are unknowns that null does not decide. -/
inductive Jumps (m : Method) (s : SymState) (c : Context) (σ : Assignment) (i : InstrId) :
    Instruction → InstrId → Prop
  | test {condition : Rvalue} {target : InstrId} {vs : List SymValue} {ds : List Datum} {M : Machine}
    {c' : Context} {r : Bool} : (condition.operands.mapM (ofOperand m)).Yields (.start s) c vs M c' →
    List.Forall₂ (SymValue.Shows σ) vs ds → condition.taken? ds = some r →
    Jumps m s c σ i (.branch condition target) (if r then target else i + 1)
  | instanceField {base : Local} {f : Field} {target : InstrId} {v : SymValue} {n : Int} {l : Label} {A : ArrayValue}
    {M : Machine} {c' : Context} {r : Bool} : (ofLocal m base).Yields (.start s) c v M c' → v.Shows σ (.object n) →
    n ≠ 0 → (s.memory.array l (.ofField f)).eval σ = .ok (.array A) → A.get (.ofInt n 32) = .bool r →
    Jumps m s c σ i (.branch (.instanceField base f) target) (if r then target else i + 1)
  | staticField {f : Field} {target : InstrId} {l : Label} {A : ArrayValue} {r : Bool} :
    (s.memory.array l (.ofField f)).eval σ = .ok (.array A) → A.get (.ofInt 0 32) = .bool r →
    Jumps m s c σ i (.branch (.staticField f) target) (if r then target else i + 1)
  | element {array : Local} {index : Operand} {target : InstrId} {l : Label} {name : String} {M : Machine}
    {c' : Context} {r : Bool} : (ofRvalue m (.arrayElement array index .boolean)).Yields (.start s) c
      (.primitive .boolean (.var l name .bool)) M c' → σ.get? name = some (.bool r) →
    Jumps m s c σ i (.branch (.arrayElement array index .boolean) target) (if r then target else i + 1)
  | instanceOf {a : Operand} {check : Ty} {target : InstrId} {v : SymValue} {n : Int} {l : Label} {name : String}
    {M M' : Machine} {c' c'' : Context} {r : Bool} : (ofOperand m a).Yields (.start s) c v M c' →
    v.Shows σ (.object n) → n ≠ 0 → (ofRvalue m (.instanceOf a check)).Yields (.start s) c
      (.primitive .boolean (.var l name .bool)) M' c'' → σ.get? name = some (.bool r) →
    Jumps m s c σ i (.branch (.instanceOf a check) target) (if r then target else i + 1)
  | switch {key : Operand} {table : SwitchTable} {default : InstrId} {k : IntegerTy} {u : Term} {n : Int}
    {M : Machine} {c' : Context} :
    (ofOperand m key).Yields (.start s) c (.primitive k.ty u) M c' → k.Shows σ u n →
    Jumps m s c σ i (.switch key table default) (table.jump default n)

/-- The condition of a branch puts a truth value that is true beside a number that is no truth value. -/
inductive Blurred (m : Method) (s : SymState) (c : Context) (σ : Assignment) : Instruction → Prop
  | binary {op : Operator} {a b : Operand} {ty : Ty} {target : InstrId} {v w : SymValue} {d e : Datum} {M : Machine}
    {c' : Context} : ([a, b].mapM (ofOperand m)).Yields (.start s) c [v, w] M c' → v.Shows σ d → w.Shows σ e →
    v.Blurs w d e ∨ w.Blurs v e d → Blurred m s c σ (.branch (.binary op a b ty) target)

section Deciding

variable {F : Field → Prop} {m : Method} {s : SymState} {c c' c'' : Context} {M M' : Machine} {σ : Assignment}
  {i j target default : InstrId} {v : SymValue} {vs : List SymValue} {t : Term}

theorem yields_operand {a : Operand} :
    ([a].mapM (ofOperand m)).Yields M c vs M' c' ↔ ∃ v, (ofOperand m a).Yields M c v M' c' ∧ vs = [v] := by
  rw [List.mapM_cons, List.mapM_nil]
  constructor
  · intro run
    obtain ⟨v, M₁, c₁, first, run⟩ := Run.yields_bind.1 run
    obtain ⟨rest, M₂, c₂, none, run⟩ := Run.yields_bind.1 run
    obtain ⟨rfl, rfl, rfl⟩ := Run.yields_pure.1 none
    obtain ⟨rfl, rfl, rfl⟩ := Run.yields_pure.1 run
    exact ⟨v, first, rfl⟩
  · rintro ⟨v, first, rfl⟩
    refine Run.yields_bind.2 ⟨v, M', c', first, ?_⟩
    exact Run.yields_bind.2 ⟨[], M', c', Run.yields_pure.2 ⟨rfl, rfl, rfl⟩, Run.yields_pure.2 ⟨rfl, rfl, rfl⟩⟩

theorem yields_operands {a b : Operand} : ([a, b].mapM (ofOperand m)).Yields M c vs M' c' ↔
    ∃ v w M₁ c₁, (ofOperand m a).Yields M c v M₁ c₁ ∧ (ofOperand m b).Yields M₁ c₁ w M' c' ∧ vs = [v, w] := by
  rw [List.mapM_cons]
  constructor
  · intro run
    obtain ⟨v, M₁, c₁, first, run⟩ := Run.yields_bind.1 run
    obtain ⟨rest, M₂, c₂, second, run⟩ := Run.yields_bind.1 run
    obtain ⟨rfl, rfl, rfl⟩ := Run.yields_pure.1 run
    obtain ⟨w, last, rfl⟩ := yields_operand.1 second
    exact ⟨v, w, M₁, c₁, first, last, rfl⟩
  · rintro ⟨v, w, M₁, c₁, first, second, rfl⟩
    refine Run.yields_bind.2 ⟨v, M₁, c₁, first, ?_⟩
    exact Run.yields_bind.2 ⟨[w], M', c', yields_operand.2 ⟨w, second, rfl⟩, Run.yields_pure.2 ⟨rfl, rfl, rfl⟩⟩

/-- The operands of a condition that has a value have values, too. -/
theorem exists_reads {condition : Rvalue} (run : (ofRvalue m condition).Yields M c v M' c') :
    ∃ vs M₁ c₁, (condition.operands.mapM (ofOperand m)).Yields M c vs M₁ c₁ := by
  cases condition with
  | use a => exact ⟨[v], M', c', yields_operand.2 ⟨v, run, rfl⟩⟩
  | binary op a b ty =>
    obtain ⟨v, M₁, c₁, first, run⟩ := Run.yields_bind.1 run
    obtain ⟨w, M₂, c₂, second, -⟩ := Run.yields_bind.1 run
    exact ⟨[v, w], M₂, c₂, yields_operands.2 ⟨v, w, M₁, c₁, first, second, rfl⟩⟩
  | _ => exact ⟨[], M, c, Run.yields_pure.2 ⟨rfl, rfl, rfl⟩⟩

/-- An operator takes the values of its operands. -/
theorem yields_binary {op : Operator} {a b : Operand} {ty : Ty} {u w : SymValue} {M₁ M₂ : Machine} {c₁ c₂ : Context}
    (run : (ofRvalue m (.binary op a b ty)).Yields M c v M' c') (first : (ofOperand m a).Yields M c u M₁ c₁)
    (second : (ofOperand m b).Yields M₁ c₁ w M₂ c₂) : ∃ l, Machine.operate l op u w ty = .ok v := by
  obtain ⟨u', M₃, c₃, first', rest⟩ := Run.yields_bind.1 run
  obtain ⟨rfl, rfl, rfl⟩ := first.unique first'
  obtain ⟨w', M₄, c₄, second', applied⟩ := Run.yields_bind.1 rest
  obtain ⟨rfl, rfl, rfl⟩ := second.unique second'
  obtain ⟨l, M₅, c₅, -, lift⟩ := Run.yields_bind.1 applied
  exact ⟨l, (Run.yields_lift.1 lift).1⟩

/-- A boolean value is a condition that is true just if its datum is not zero. -/
theorem denote_condition {k : IntegerTy} {n : Int} {ty : Ty} (typed : v.HasType ty)
    (bool : Machine.condition v = .ok t) (shows : v.Shows σ (.integer k n)) :
    t.denote σ.valuation = some (.bool (n ≠ 0)) := by
  obtain ⟨rfl, sort⟩ := Machine.condition_ok bool
  cases shows with
  | @truth t b value =>
    rw [← Term.value?_eq_some, Term.value?_eq_denote] at value
    have same : decide (b.toInt ≠ 0) = b := by cases b <;> rfl
    exact value.trans (by rw [same])
  | @integer _ t =>
    have sorted : t.sort = k.ty.sort := typed.self.of_primitive.2.2.1
    rw [k.sort_ty] at sorted
    cases sorted.symm.trans sort

/-- The value of a condition is what the machine finds on the data of its operands. -/
theorem denote_taken {condition : Rvalue} {ds : List Datum} {r : Bool} (state : s.WellTyped F)
    (run : (ofRvalue m condition).Yields (.start s) c v M c') (bool : Machine.condition v = .ok t)
    (operands : (condition.operands.mapM (ofOperand m)).Yields (.start s) c vs M' c'')
    (shows : List.Forall₂ (SymValue.Shows σ) vs ds) (taken : condition.taken? ds = some r)
    (clear : ¬ Blurred m s c σ (.branch condition target)) : t.denote σ.valuation = some (.bool r) := by
  cases condition with
  | use a =>
    obtain ⟨u, run', rfl⟩ := yields_operand.1 operands
    obtain ⟨rfl, -, -⟩ := run.unique run'
    obtain ⟨-, typed⟩ := (ensures_ofOperand m a).of_yields (.start state) run'
    obtain ⟨d, none, first, empty, rfl⟩ := List.forall₂_cons_left_iff.1 shows
    obtain rfl := List.forall₂_nil_left_iff.1 empty
    cases d with
    | integer k n =>
      cases taken
      exact denote_condition typed bool first
    | _ => cases taken
  | binary op a b ty =>
    obtain ⟨u, w, M₁, c₁, first, second, rfl⟩ := yields_operands.1 operands
    obtain ⟨d, es, shows₁, rest, rfl⟩ := List.forall₂_cons_left_iff.1 shows
    obtain ⟨e, none, shows₂, empty, rfl⟩ := List.forall₂_cons_left_iff.1 rest
    obtain rfl := List.forall₂_nil_left_iff.1 empty
    obtain ⟨x, result, truth⟩ := Option.bind_eq_some_iff.1 taken
    obtain ⟨typed, hu⟩ := (ensures_ofOperand m a).of_yields (.start state) first
    obtain ⟨-, hw⟩ := (ensures_ofOperand m b).of_yields typed second
    obtain ⟨l, operated⟩ := yields_binary run first second
    obtain ⟨y, applied, decides⟩ := Machine.condition_of_operate hu hw operated bool
    refine decides _ r (Machine.decided_of_applied hu hw shows₁ shows₂ applied result truth ?_ ?_)
    · exact fun blurs => clear (.binary operands shows₁ shows₂ (.inl blurs))
    · exact fun blurs => clear (.binary operands shows₁ shows₂ (.inr blurs))
  | _ =>
    cases operands
    cases shows
    cases taken

/-- A local reads without any effect. -/
theorem ofLocal_keeps {x : Local} (run : (ofLocal m x).Yields M c v M' c') : M' = M ∧ c' = c := by
  obtain ⟨o, M₁, c₁, known, rest⟩ := Run.yields_bind.1 run
  obtain ⟨N, M₂, c₂, read, done⟩ := Run.yields_bind.1 known
  obtain ⟨-, rfl, rfl⟩ := Run.yields_get.1 read
  obtain ⟨-, rfl, rfl⟩ := Run.yields_pure.1 done
  cases o with
  | none => exact absurd rest Run.not_yields_throw
  | some u => exact (Run.yields_pure.1 rest).2

/-- A field that is read as a condition is the element of its array at the address. -/
theorem yields_read {address : Term} {f : Field} (run : (Machine.read address f).Yields M c v M' c')
    (bool : Machine.condition v = .ok t) :
    ∃ l l', t = .select l (M.base.memory.array l' (.ofField f)) address := by
  obtain ⟨l, M₁, c₁, label, rest⟩ := Run.yields_bind.1 run
  obtain ⟨N, M₂, c₂, get, done⟩ := Run.yields_bind.1 rest
  obtain ⟨-, rfl, -⟩ := Run.yields_freshLabel.1 label
  obtain ⟨rfl, rfl, -⟩ := Run.yields_get.1 get
  obtain ⟨rfl, -, -⟩ := Run.yields_pure.1 done
  obtain ⟨rfl, -⟩ := Machine.condition_ok bool
  have wrapped (u : Term) : (SymValue.wrap f.ty u).term = u := by
    unfold SymValue.wrap
    split <;> rfl
  exact ⟨_, _, wrapped _⟩

/-- It is true just if that element is, whatever the label of the array. -/
theorem denote_read {address : Term} {f : Field} {l : Label} {A : ArrayValue} {x : Value} {r : Bool}
    (run : (Machine.read address f).Yields M c v M' c') (bool : Machine.condition v = .ok t)
    (array : (M.base.memory.array l (.ofField f)).eval σ = .ok (.array A))
    (index : address.denote σ.valuation = some x) (element : A.get x = .bool r) :
    t.denote σ.valuation = some (.bool r) := by
  obtain ⟨l₁, l₂, rfl⟩ := yields_read run bool
  rw [← Term.value?_eq_some, Term.value?_eq_denote] at array
  rw [Term.select, Term.denote, Memory.array_denote _ _ l₂ l, array, index, Option.bind_some, Option.bind_some,
    ← element]
  rfl

/-- What is true or false of a field is what its array has at the address. -/
theorem exists_element {address : Term} {f : Field} {r : Bool} (run : (Machine.read address f).Yields M c v M' c')
    (bool : Machine.condition v = .ok t) (value : t.denote σ.valuation = some (.bool r)) :
    ∃ l A x, (M.base.memory.array l (.ofField f)).eval σ = .ok (.array A) ∧
      address.denote σ.valuation = some x ∧ A.get x = .bool r := by
  obtain ⟨l₁, l₂, rfl⟩ := yields_read run bool
  obtain ⟨y, array, value⟩ := Option.bind_eq_some_iff.1 value
  obtain ⟨x, index, value⟩ := Option.bind_eq_some_iff.1 value
  cases y with
  | array A =>
    rw [← Term.value?_eq_denote, Term.value?_eq_some] at array
    exact ⟨l₂, A, x, array, index, Option.some.inj value⟩
  | _ => cases value

/-- A branch that puts no number beside a truth value jumps by the truth value of its condition. -/
theorem Jumps.denote {condition : Rvalue} (state : s.WellTyped F)
    (run : (ofRvalue m condition).Yields (.start s) c v M c') (bool : Machine.condition v = .ok t)
    (clear : ¬ Blurred m s c σ (.branch condition target))
    (h : Jumps m s c σ i (.branch condition target) j) :
    ∃ r : Bool, j = (if r then target else i + 1) ∧ t.denote σ.valuation = some (.bool r) := by
  cases h with
  | test operands shows taken => exact ⟨_, rfl, denote_taken state run bool operands shows taken clear⟩
  | instanceField base shows _ array element =>
    obtain ⟨u, M₁, c₁, first, rest⟩ := Run.yields_bind.1 run
    obtain ⟨address, M₂, c₂, lift, read⟩ := Run.yields_bind.1 rest
    obtain ⟨found, rfl, rfl⟩ := Run.yields_lift.1 lift
    obtain ⟨rfl, rfl, rfl⟩ := base.unique first
    obtain ⟨rfl, rfl⟩ := ofLocal_keeps base
    cases shows with
    | object shows =>
      cases found
      exact ⟨_, rfl, denote_read read bool array shows.denote element⟩
  | staticField array element =>
    obtain ⟨l, M₁, c₁, label, read⟩ := Run.yields_bind.1 run
    obtain ⟨-, rfl, rfl⟩ := Run.yields_freshLabel.1 label
    exact ⟨_, rfl, denote_read read bool array rfl element⟩
  | element run' assigned | instanceOf _ _ _ run' assigned =>
    obtain ⟨rfl, -, -⟩ := run.unique run'
    obtain ⟨rfl, -⟩ := Machine.condition_ok bool
    exact ⟨_, rfl, assigned⟩

theorem boolean_of_sort {ty : Ty} (h : ty.sort = .bool) : ty = .boolean := by
  cases ty with
  | boolean => rfl
  | _ => cases h

/-- Every assignment of what a test reads makes its branch jump. -/
theorem exists_jumps {condition : Rvalue} (state : s.WellTyped F) (tests : condition.tests = true)
    (run : (ofRvalue m condition).Yields (.start s) c v M c') (bool : Machine.condition v = .ok t)
    (operands : (condition.operands.mapM (ofOperand m)).Yields (.start s) c vs M' c'')
    (bound : σ.WellSorted ((v :: vs).map (·.term))) : ∃ j, Jumps m s c σ i (.branch condition target) j := by
  cases condition with
  | use a =>
    obtain ⟨u, run', rfl⟩ := yields_operand.1 operands
    obtain ⟨rfl, -, -⟩ := run.unique run'
    obtain ⟨-, typed⟩ := (ensures_ofOperand m a).of_yields (.start state) run'
    cases v with
    | reference => cases bool
    | primitive ty x =>
      have sorted := typed.self.of_primitive.2.2
      obtain ⟨rfl, sort⟩ := Machine.condition_ok bool
      obtain rfl := boolean_of_sort (sorted.1.symm.trans sort)
      obtain ⟨x, value, sort⟩ := bound.exists_eval List.mem_cons_self sorted
      obtain ⟨b, rfl⟩ := Value.bool_of_hasSort sort
      exact ⟨_, .test operands (.cons (.truth value) .nil) rfl⟩
  | binary op a b ty =>
    simp only [Rvalue.tests, Bool.and_eq_true, Bool.or_eq_true, bne_iff_ne, Bool.not_eq_true'] at tests
    obtain ⟨⟨⟨compares, kinds⟩, left⟩, right⟩ := tests
    obtain ⟨u, w, M₁, c₁, first, second, rfl⟩ := yields_operands.1 operands
    obtain ⟨l, operated⟩ := yields_binary run first second
    obtain ⟨typed, hu⟩ := (ensures_ofOperand m a).of_yields (.start state) first
    obtain ⟨-, hw⟩ := (ensures_ofOperand m b).of_yields typed second
    obtain ⟨x, applied, -⟩ := Machine.condition_of_operate hu hw operated bool
    obtain ⟨d, shows⟩ := SymValue.exists_shows bound (by simp) hu left
    obtain ⟨e, shows'⟩ := SymValue.exists_shows bound (by simp) hw right
    have comparable := Machine.kinds_of_applied hu hw shows shows' applied
    obtain ⟨r, compared⟩ := Operator.exists_compared compares (d := d) (e := e) <| by
      refine comparable.imp_right fun ⟨address, objects⟩ => ⟨kinds.resolve_right ?_, objects⟩
      rw [address]
      exact Bool.noConfusion
    exact ⟨_, .test operands (.cons shows (.cons shows' .nil)) compared⟩
  | staticField f =>
    obtain ⟨-, sorted⟩ := (ensures_ofRvalue_sorted m (.staticField f)).of_yields (.start state) run
    obtain ⟨rfl, sort⟩ := Machine.condition_ok bool
    obtain ⟨r, value⟩ := bound.condition List.mem_cons_self ⟨sort, sorted⟩
    obtain ⟨l, M₁, c₁, label, read⟩ := Run.yields_bind.1 run
    obtain ⟨-, rfl, rfl⟩ := Run.yields_freshLabel.1 label
    obtain ⟨l', A, x, array, index, element⟩ := exists_element read bool value
    cases index
    exact ⟨_, .staticField array element⟩
  | arrayElement array index ty =>
    obtain ⟨rfl, sort⟩ := Machine.condition_ok bool
    cases Machine.yields_unknown run with
    | void => cases sort
    | null => cases bool
    | object => cases bool
    | primitive =>
      obtain rfl := boolean_of_sort sort
      obtain ⟨x, assigned, sort⟩ := bound (_, .bool) (Term.mem_varsAll.2 ⟨_, List.mem_cons_self, List.mem_cons_self⟩)
      obtain ⟨b, rfl⟩ := Value.bool_of_hasSort sort
      exact ⟨_, .element run assigned⟩
  | _ => cases tests

/-- The key of a switch is an integer. -/
theorem integer_of_key {key : Operand} (state : s.WellTyped F)
    (run : (ofOperand m key).Yields (.start s) c v M c') (integral : key.ty.isIntegral = true) :
    ∃ (k : IntegerTy) (u : Term), v = .primitive k.ty u ∧ u.OfSort k.ty.sort := by
  obtain ⟨-, typed⟩ := (ensures_ofOperand m key).of_yields (.start state) run
  obtain ⟨k, kind⟩ := IntegerTy.exists_of_isIntegral integral
  cases v with
  | primitive ty u =>
    obtain ⟨rfl, -, sorted⟩ := typed.of_primitive
    rw [kind] at sorted ⊢
    exact ⟨k, u, rfl, sorted⟩
  | reference ty u =>
    have reference := typed.of_reference.2.1
    rw [kind] at reference
    cases k <;> cases reference

/-- A switch jumps to the target that its cases choose. -/
theorem Jumps.chosen {key : Operand} {table : SwitchTable} {k : IntegerTy} {u : Term}
    {r : List (Term × InstrId) × Term} (proper : table.isProper = true) (sorted : u.OfSort k.ty.sort)
    (run : (ofOperand m key).Yields (.start s) c (.primitive k.ty u) M c')
    (tested : (switchCases (.primitive k.ty u) table).Yields M c' r M' c'')
    (h : Jumps m s c σ i (.switch key table default) j) :
    j ∈ table.targets ++ [default] ∧ Chosen σ.valuation (r.1 ++ [(r.2, default)]) j := by
  cases h with
  | @switch _ _ _ k' u' n _ _ run' shows =>
    obtain ⟨same, -, -⟩ := run.unique run'
    obtain ⟨kind, rfl⟩ := SymValue.primitive.inj same
    obtain rfl := IntegerTy.ty_injective kind
    obtain ⟨-, chosen⟩ :=
      (ensures_switchCases_chosen sorted shows.holds shows.denote proper default).of_yields trivial tested
    exact ⟨table.jump_mem default n, chosen⟩

end Deciding

section Performed

variable {m : Method} {M M' : Machine} {c c' : Context} {target default : InstrId} {e : Effect}

theorem yields_branch {condition : Rvalue} (run : (ofInstruction m (.branch condition target)).Yields M c e M' c') :
    ∃ v t l c₁, (ofRvalue m condition).Yields M c v M' c₁ ∧ Machine.condition v = .ok t ∧
      e = .branch t (.not l t) target := by
  obtain ⟨v, M₁, c₁, evaluated, tested⟩ := Run.yields_bind.1 run
  obtain ⟨t, M₂, c₂, lift, labelled⟩ := Run.yields_bind.1 tested
  obtain ⟨bool, rfl, rfl⟩ := Run.yields_lift.1 lift
  obtain ⟨l, M₃, c₃, label, done⟩ := Run.yields_bind.1 labelled
  obtain ⟨-, rfl, rfl⟩ := Run.yields_freshLabel.1 label
  obtain ⟨rfl, rfl, rfl⟩ := Run.yields_pure.1 done
  exact ⟨v, t, l, _, evaluated, bool, rfl⟩

theorem yields_switch {key : Operand} {table : SwitchTable}
    (run : (ofInstruction m (.switch key table default)).Yields M c e M' c') :
    ∃ v r M₁ c₁, (ofOperand m key).Yields M c v M₁ c₁ ∧ (switchCases v table).Yields M₁ c₁ r M' c' ∧
      e = .switch (r.1 ++ [(r.2, default)]) := by
  obtain ⟨v, M₁, c₁, evaluated, switched⟩ := Run.yields_bind.1 run
  obtain ⟨r, M₂, c₂, tested, done⟩ := Run.yields_bind.1 switched
  obtain ⟨rfl, rfl, rfl⟩ := Run.yields_pure.1 done
  exact ⟨v, r, M₁, c₁, evaluated, tested, rfl⟩

end Performed

end Effect

/-- Instructions that jump whatever is assigned to their unknowns. -/
def Instruction.tests : Instruction → Bool
  | branch condition _ => condition.tests
  | switch _ _ _ => true
  | _ => false

end SinkReach
