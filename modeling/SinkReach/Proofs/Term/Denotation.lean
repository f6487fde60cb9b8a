import SinkReach.Term.Build

/-!
Values of terms without the reasons for their absence. A term's value is a function of its operands'
values alone: neither labels nor the order of evaluation matter, and only the constants that occur in
the term are looked up.
-/
namespace SinkReach

theorem toOption_bind {ε α β : Type} (x : Except ε α) (f : α → Except ε β) :
    (x >>= f).toOption = x.toOption.bind fun a => (f a).toOption := by
  cases x <;> rfl

theorem toOption_eq_some {ε α : Type} {x : Except ε α} {a : α} :
    x.toOption = some a ↔ x = .ok a := by
  cases x <;> simp [Except.toOption]

namespace Value

/-- Truth value of a boolean. -/
def bool? : Value → Option Bool
  | bool b => some b
  | _ => none

theorem toBool_toOption (t : Term) (v : Value) : (v.toBool t).toOption = v.bool? := by
  cases v <;> rfl

theorem bool?_eq_some {v : Value} {b : Bool} : v.bool? = some b ↔ v = .bool b := by
  cases v <;> simp [bool?]

end Value

namespace Term

/-- Result of a unary operation on a value. -/
def UnaryOp.denote (op : UnaryOp) (v : Value) : Option Value :=
  (op.apply default default v).toOption

/-- Result of a binary operation on values. -/
def BinaryOp.denote (op : BinaryOp) (v w : Value) : Option Value :=
  (op.apply default default default v w).toOption

/-- An array with one element written. -/
def denoteStore (array index element : Value) : Option Value :=
  (storeValue default array index element).toOption

theorem UnaryOp.apply_toOption (op : UnaryOp) (t a : Term) (v : Value) :
    (op.apply t a v).toOption = op.denote v := by
  unfold denote
  cases op with
  | not | bits | signExtend | zeroExtend | extract | fpNeg | fpIsNaN => cases v <;> rfl
  | fpToFp f | fpToSbv w =>
    simp only [apply]
    cases v.toDouble? with
    | none => rfl
    | some x => rfl
  | bvToFp f =>
    simp only [apply, toOption_bind]
    cases v with
    | bitVec => cases f.precision? <;> rfl
    | bool | float | array => rfl

theorem BinaryOp.apply_toOption (op : BinaryOp) (t a b : Term) (v w : Value) :
    (op.apply t a b v w).toOption = op.denote v w := by
  unfold denote
  cases op with
  | xor | eq | compare | select => cases v <;> cases w <;> rfl
  | bits op =>
    cases v <;> cases w <;> try rfl
    simp only [apply, Value.toBits, bind, Except.bind]
    split <;> rfl
  | fp op | fpCompare op =>
    cases v <;> cases w <;> try rfl
    simp only [apply]
    split <;> rfl

theorem UnaryOp.denote_fpToFp (f : FloatFormat) (v : Value) :
    (fpToFp f).denote v = v.toDouble?.bind fun x =>
      f.precision?.map fun p => .float p (Precision.double.convert p x) := by
  simp only [denote, apply]
  cases v.toDouble? with
  | none => rfl
  | some x => cases f.precision? <;> rfl

theorem UnaryOp.denote_bvToFp (f : FloatFormat) (x n : Nat) :
    (bvToFp f).denote (.bitVec x n) =
      f.precision?.map fun p => .float p (p.ofInt (Bits.toInt x n)) := by
  simp only [denote, apply, Value.toBits, bind, Except.bind]
  cases f.precision? <;> rfl

theorem UnaryOp.denote_fpToSbv (n : Nat) (v : Value) :
    (fpToSbv n).denote v =
      v.toDouble?.map fun x => .ofInt (Precision.double.toInt64 x) n := by
  simp only [denote, apply]
  cases v.toDouble? <;> rfl

theorem BinaryOp.denote_bits (op : Bits.BinaryOp) (x n y m : Nat) :
    (bits op).denote (.bitVec x n) (.bitVec y m) =
      if n = m then some (.bitVec (op.apply x y n) n) else none := by
  simp only [denote, apply, Value.toBits, bind, Except.bind]
  split <;> rfl

theorem BinaryOp.denote_fp (op : FloatOp) (p q : Precision) (x y : Nat) :
    (fp op).denote (.float p x) (.float q y) =
      if p = q then some (.float p (op.apply p x y)) else none := by
  simp only [denote, apply]
  split <;> rfl

theorem BinaryOp.denote_fpCompare (op : FloatCompareOp) (p q : Precision) (x y : Nat) :
    (fpCompare op).denote (.float p x) (.float q y) =
      if p = q then some (.bool (op.holds p x y)) else none := by
  simp only [denote, apply]
  split <;> rfl

theorem storeValue_toOption (t : Term) (array index element : Value) :
    (storeValue t array index element).toOption = denoteStore array index element := by
  cases array <;> rfl

/-- A first operand that fails its check has no result with any second operand. -/
theorem BinaryOp.precheck_bind (op : BinaryOp) (a : Term) (v : Value) (w : Option Value) :
    ((op.precheck a v).toOption.bind fun _ => w.bind (op.denote v)) = w.bind (op.denote v) := by
  cases w with
  | none => cases (op.precheck a v).toOption <;> rfl
  | some w => cases op <;> cases v <;> rfl

/-- Value of a term, if it has one. -/
def value? (env : Assignment) (t : Term) : Option Value := (t.eval env).toOption

/-- Truth value of the items of a junction, if it is decided. -/
def itemsValue? (env : Assignment) (absorbing : Bool) (items : List Term) : Option Bool :=
  (evalItems env absorbing items).toOption

theorem value?_eq_some {env : Assignment} {t : Term} {v : Value} :
    t.value? env = some v ↔ t.eval env = .ok v := toOption_eq_some

section
variable (env : Assignment) (l : Label)

-- The equations of evaluation are derived here, once for all lemmas of the section.
attribute [local simp] eval evalItems

theorem value?_leaf (a : Atom) : (leaf l a).value? env = (a.eval env).toOption := by
  rw [value?, eval]

theorem value?_unary (op : UnaryOp) (a : Term) :
    (unary l op a).value? env = (a.value? env).bind op.denote := by
  rw [value?, eval, toOption_bind]
  simp only [UnaryOp.apply_toOption]
  rfl

theorem value?_binary (op : BinaryOp) (a b : Term) :
    (binary l op a b).value? env =
      (a.value? env).bind fun v => (b.value? env).bind (op.denote v) := by
  by_cases h : op = .select
  · subst h
    rw [value?, eval]
    simp only [toOption_bind, BinaryOp.apply_toOption]
    change ((b.value? env).bind fun w => (a.value? env).bind fun v => BinaryOp.select.denote v w) = _
    cases a.value? env <;> cases b.value? env <;> rfl
  · rw [value?, eval]
    · simp only [toOption_bind, BinaryOp.apply_toOption]
      change ((a.value? env).bind fun v => (op.precheck a v).toOption.bind fun _ =>
        (b.value? env).bind (op.denote v)) = _
      simp only [BinaryOp.precheck_bind]
    · exact h

theorem value?_ite (c a b : Term) :
    (ternary l .ite c a b).value? env =
      ((c.value? env).bind Value.bool?).bind fun h => if h then a.value? env else b.value? env := by
  rw [value?, eval]
  simp only [toOption_bind, Value.toBool_toOption, Option.bind_assoc]
  change ((c.value? env).bind fun v => v.bool?.bind fun h => _) = _
  congr
  funext v
  congr
  funext h
  cases h <;> rfl

theorem value?_store (a i e : Term) :
    (ternary l .store a i e).value? env =
      (a.value? env).bind fun x => (i.value? env).bind fun k => (e.value? env).bind (denoteStore x k) := by
  rw [value?, eval]
  simp only [toOption_bind, storeValue_toOption]
  change ((i.value? env).bind fun k => (e.value? env).bind fun v =>
    (a.value? env).bind fun x => denoteStore x k v) = _
  cases a.value? env <;> cases i.value? env <;> cases e.value? env <;> rfl

theorem value?_junction (op : Junction) (items : List Term) :
    (junction l op items).value? env = (itemsValue? env op.absorbing items).map Value.bool := by
  rw [value?, eval, toOption_bind, itemsValue?]
  cases (evalItems env op.absorbing items).toOption <;> rfl

theorem itemsValue?_nil (absorbing : Bool) : itemsValue? env absorbing [] = some !absorbing := by
  rw [itemsValue?, evalItems]
  rfl

theorem itemsValue?_cons (absorbing : Bool) (t : Term) (ts : List Term) :
    itemsValue? env absorbing (t :: ts) = ((t.value? env).bind Value.bool?).bind fun b =>
      if b = absorbing then some absorbing else itemsValue? env absorbing ts := by
  rw [itemsValue?, evalItems]
  simp only [toOption_bind, Value.toBool_toOption, Option.bind_assoc]
  change ((t.value? env).bind fun v => v.bool?.bind fun b => _) = _
  congr
  funext v
  congr
  funext b
  split <;> rfl

end

/-- Induction in which the items of a junction are covered by membership. -/
@[elab_as_elim, induction_eliminator]
theorem induction {P : Term → Prop}
    (leaf : ∀ l a, P (leaf l a))
    (unary : ∀ l op a, P a → P (unary l op a))
    (binary : ∀ l op a b, P a → P b → P (binary l op a b))
    (ternary : ∀ l op a b c, P a → P b → P c → P (ternary l op a b c))
    (junction : ∀ l op items, (∀ t ∈ items, P t) → P (junction l op items))
    (t : Term) : P t :=
  @Term.rec P (fun ts => ∀ t ∈ ts, P t) leaf unary binary ternary junction
    (fun _ h => nomatch h) (fun _ _ ht hts => List.forall_mem_cons.2 ⟨ht, hts⟩) t

end Term

/-- Values of constants by name and sort. -/
abbrev Valuation := String → TermSort → Option Value

/-- The values that an assignment gives, whatever the sort. -/
def Assignment.valuation (env : Assignment) : Valuation := fun name _ => env.get? name

namespace Term

def Atom.denote (ρ : Valuation) : Atom → Option Value
  | bool b => some (.bool b)
  | bitVec bits width => some (.bitVec bits width)
  | float bits format => format.precision?.map fun p => .float p bits
  | var name s => ρ name s

mutual

/-- Value of a term under a valuation, if it has one. -/
def denote (ρ : Valuation) : Term → Option Value
  | leaf _ a => a.denote ρ
  | unary _ op a => (a.denote ρ).bind op.denote
  | binary _ op a b => (a.denote ρ).bind fun v => (b.denote ρ).bind (op.denote v)
  | ternary _ .ite c a b =>
    ((c.denote ρ).bind Value.bool?).bind fun h => if h then a.denote ρ else b.denote ρ
  | ternary _ .store a i e =>
    (a.denote ρ).bind fun x => (i.denote ρ).bind fun k => (e.denote ρ).bind (denoteStore x k)
  | junction _ op items => (denoteItems ρ op.absorbing items).map Value.bool

/-- Truth value of items from left to right, up to the first absorbing one. -/
def denoteItems (ρ : Valuation) (absorbing : Bool) : List Term → Option Bool
  | [] => some !absorbing
  | t :: ts => ((t.denote ρ).bind Value.bool?).bind fun b =>
    if b = absorbing then some absorbing else denoteItems ρ absorbing ts

end

theorem itemsValue?_eq_denoteItems {env : Assignment} {absorbing : Bool} {items : List Term}
    (h : ∀ t ∈ items, t.value? env = t.denote env.valuation) :
    itemsValue? env absorbing items = denoteItems env.valuation absorbing items := by
  induction items with
  | nil => rw [itemsValue?_nil, denoteItems]
  | cons t ts ih =>
    obtain ⟨ht, hts⟩ := List.forall_mem_cons.1 h
    rw [itemsValue?_cons, denoteItems, ht, ih hts]

theorem value?_eq_denote (env : Assignment) (t : Term) : t.value? env = t.denote env.valuation := by
  induction t with
  | leaf l a =>
    rw [value?_leaf, denote]
    cases a with
    | bool | bitVec => rfl
    | float bits f =>
      simp only [Atom.eval, Atom.denote]
      cases f.precision? <;> rfl
    | var name s =>
      simp only [Atom.eval, Atom.denote, Assignment.valuation]
      cases env.get? name <;> rfl
  | unary l op a iha => rw [value?_unary, denote, iha]
  | binary l op a b iha ihb => rw [value?_binary, denote, iha, ihb]
  | ternary l op a b c iha ihb ihc =>
    cases op with
    | ite => rw [value?_ite, denote, iha, ihb, ihc]
    | store => rw [value?_store, denote, iha, ihb, ihc]
  | junction l op items ih => rw [value?_junction, denote, itemsValue?_eq_denoteItems ih]

/-- Terms of the same structure have the same value. -/
theorem denote_of_alike (ρ : Valuation) {s t : Term} (h : s.alike t = true) :
    s.denote ρ = t.denote ρ := by
  induction s generalizing t with
  | leaf l a =>
    cases t <;> simp only [alike, Bool.false_eq_true, beq_iff_eq] at h
    rw [denote, denote, h]
  | unary l op a iha =>
    cases t <;> simp only [alike, Bool.false_eq_true, Bool.and_eq_true, beq_iff_eq] at h
    rw [denote, denote, h.1, iha h.2]
  | binary l op a b iha ihb =>
    cases t <;> simp only [alike, Bool.false_eq_true, Bool.and_eq_true, beq_iff_eq] at h
    rw [denote, denote, h.1.1, iha h.1.2, ihb h.2]
  | ternary l op a b c iha ihb ihc =>
    cases t <;> simp only [alike, Bool.false_eq_true, Bool.and_eq_true, beq_iff_eq] at h
    obtain ⟨⟨⟨rfl, ha⟩, hb⟩, hc⟩ := h
    cases op with
    | ite => rw [denote, denote, iha ha, ihb hb, ihc hc]
    | store => rw [denote, denote, iha ha, ihb hb, ihc hc]
  | junction l op items ih =>
    cases t <;> simp only [alike, Bool.false_eq_true, Bool.and_eq_true, beq_iff_eq] at h
    rename_i l' op' items'
    obtain ⟨rfl, hs⟩ := h
    rw [denote, denote]
    congr 1
    induction items generalizing items' with
    | nil => cases items' with
      | nil => rfl
      | cons => simp [alikeAll] at hs
    | cons u us ihs => cases items' with
      | nil => simp [alikeAll] at hs
      | cons u' us' =>
        simp only [alikeAll, Bool.and_eq_true] at hs
        rw [denoteItems, denoteItems, ih u List.mem_cons_self hs.1,
          ihs (fun t ht => ih t (List.mem_cons_of_mem _ ht)) us' hs.2]

theorem value?_of_alike (env : Assignment) {s t : Term} (h : s.alike t = true) :
    s.value? env = t.value? env := by
  rw [value?_eq_denote, value?_eq_denote, denote_of_alike env.valuation h]

mutual

/-- Occurrences of constants in a term. -/
def vars : Term → List (String × TermSort)
  | leaf _ (.var name sort) => [(name, sort)]
  | leaf _ _ => []
  | unary _ _ a => a.vars
  | binary _ _ a b => a.vars ++ b.vars
  | ternary _ _ a b c => a.vars ++ b.vars ++ c.vars
  | junction _ _ items => varsAll items

def varsAll : List Term → List (String × TermSort)
  | [] => []
  | t :: ts => t.vars ++ varsAll ts

end

theorem mem_varsAll {x : String × TermSort} {ts : List Term} :
    x ∈ varsAll ts ↔ ∃ t ∈ ts, x ∈ t.vars := by
  induction ts with
  | nil => simp [varsAll]
  | cons t ts ih => simp [varsAll, ih]

theorem vars_subset_of_mem {op : Junction} {l : Label} {items : List Term} {t : Term}
    (h : t ∈ items) : t.vars ⊆ (junction l op items).vars :=
  fun _ hx => by simpa only [vars] using mem_varsAll.2 ⟨t, h, hx⟩

theorem denoteItems_congr {ρ ρ' : Valuation} {absorbing : Bool} {items : List Term}
    (h : ∀ t ∈ items, t.denote ρ = t.denote ρ') :
    denoteItems ρ absorbing items = denoteItems ρ' absorbing items := by
  induction items with
  | nil => rw [denoteItems, denoteItems]
  | cons t ts ih =>
    obtain ⟨ht, hts⟩ := List.forall_mem_cons.1 h
    rw [denoteItems, denoteItems, ht, ih hts]

/-- Two valuations that agree on the constants of a term give it the same value. -/
theorem denote_congr {ρ ρ' : Valuation} {t : Term} (h : ∀ x ∈ t.vars, ρ x.1 x.2 = ρ' x.1 x.2) :
    t.denote ρ = t.denote ρ' := by
  induction t with
  | leaf l a =>
    cases a with
    | bool | bitVec | float => rw [denote, denote, Atom.denote, Atom.denote]
    | var name s =>
      rw [denote, denote]
      exact h (name, s) (List.mem_singleton.2 rfl)
  | unary l op a iha => rw [denote, denote, iha h]
  | binary l op a b iha ihb =>
    rw [denote, denote, iha fun x hx => h x (List.mem_append_left _ hx),
      ihb fun x hx => h x (List.mem_append_right _ hx)]
  | ternary l op a b c iha ihb ihc =>
    have ha := iha fun x hx => h x (List.mem_append_left _ (List.mem_append_left _ hx))
    have hb := ihb fun x hx => h x (List.mem_append_left _ (List.mem_append_right _ hx))
    have hc := ihc fun x hx => h x (List.mem_append_right _ hx)
    cases op with
    | ite => rw [denote, denote, ha, hb, hc]
    | store => rw [denote, denote, ha, hb, hc]
  | junction l op items ih =>
    have same : ∀ t ∈ items, t.denote ρ = t.denote ρ' :=
      fun t ht => ih t ht fun x hx => h x (vars_subset_of_mem ht hx)
    rw [denote, denote, denoteItems_congr same]

/-- Two assignments that agree on the constants of a term give it the same value. -/
theorem value?_congr {env env' : Assignment} {t : Term}
    (h : ∀ x ∈ t.vars, env.get? x.1 = env'.get? x.1) : t.value? env = t.value? env' := by
  rw [value?_eq_denote, value?_eq_denote]
  exact denote_congr h

/-- The term is true under the assignment. -/
def Holds (env : Assignment) (t : Term) : Prop := t.value? env = some (.bool true)

theorem holds_iff_eval {env : Assignment} {t : Term} :
    t.Holds env ↔ t.eval env = .ok (.bool true) := value?_eq_some

theorem value?_bool_iff_evalBool {env : Assignment} {t : Term} {r : Bool} :
    t.value? env = some (.bool r) ↔ t.evalBool env = .ok r := by
  rw [← toOption_eq_some, evalBool, toOption_bind]
  simp only [Value.toBool_toOption, Option.bind_eq_some_iff, Value.bool?_eq_some]
  constructor
  · intro h
    exact ⟨_, h, rfl⟩
  · rintro ⟨v, h, rfl⟩
    exact h

theorem holds_iff_evalBool {env : Assignment} {t : Term} :
    t.Holds env ↔ t.evalBool env = .ok true := value?_bool_iff_evalBool

theorem Holds.congr {env env' : Assignment} {t : Term}
    (h : ∀ x ∈ t.vars, env.get? x.1 = env'.get? x.1) (ht : t.Holds env) : t.Holds env' :=
  (value?_congr h).symm.trans ht

/-- A conjunction is true if all its items are. -/
theorem holds_and {env : Assignment} {l : Label} {items : List Term} :
    (junction l .and items).Holds env ↔ ∀ t ∈ items, t.Holds env := by
  rw [Holds, value?_junction]
  simp only [Option.map_eq_some_iff, Value.bool.injEq, exists_eq_right, Junction.absorbing]
  induction items with
  | nil => simp [itemsValue?_nil]
  | cons t ts ih =>
    rw [itemsValue?_cons, List.forall_mem_cons, ← ih, Holds]
    rcases t.value? env with _ | (_ | _ | _ | _)
    all_goals simp [Value.bool?]
    rename_i b
    cases b <;> simp

end Term
end SinkReach
