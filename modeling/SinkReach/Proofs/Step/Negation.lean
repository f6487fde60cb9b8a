import SinkReach.Proofs.Step.Bindings
import SinkReach.Proofs.Symbolic.Arithmetic
import SinkReach.Step.Effect

/-!
Negation of integers. A local is negated at the width of its own type, without a promotion, and the result is
widened as a number of that type when it is stored. It is the negation of the promoted number where that is
a number of the type as well: everywhere for `int` and `long`, except at the least number for `byte` and
`short`, but for zero alone for `char`.
-/
namespace SinkReach

namespace Bits

variable {signed : Bool} {v w : Nat} {m n : Int}

/-- A greater width has the negation of every number. -/
theorem InRange.neg (pos : 1 ≤ v) (less : v < w) (h : InRange signed v n) : InRange true w (-n) := by
  have wider : (2 : Int) ^ v ≤ 2 ^ (w - 1) := by
    exact_mod_cast Nat.pow_le_pow_right (n := 2) (by decide) (by omega)
  cases signed with
  | true =>
    have half : (2 : Int) ^ (v - 1) < 2 ^ v := by
      exact_mod_cast Nat.pow_lt_pow_right (a := 2) (by decide) (by omega)
    obtain ⟨low, high⟩ : -2 ^ (v - 1) ≤ n ∧ n < 2 ^ (v - 1) := h
    exact ⟨by omega, by omega⟩
  | false =>
    obtain ⟨low, high⟩ : 0 ≤ n ∧ n < 2 ^ v := h
    exact ⟨by omega, by omega⟩

/-- Different numbers of a width have different patterns. -/
theorem InRange.eq_of_ofInt (hm : InRange true w m) (hn : InRange true w n) (pos : 1 ≤ w) (fits : w ≤ 64)
    (same : Value.ofInt m w = .ofInt n w) : m = n := by
  rw [Value.ofInt_eq_ofVector fits, Value.ofInt_eq_ofVector fits] at same
  have patterns := BitVec.eq_of_toNat_eq (Value.bitVec.inj same).1
  rw [← toInt_ofInt_of_inRange pos hm, patterns, toInt_ofInt_of_inRange pos hn]

end Bits

namespace IntegerTy

variable {k : IntegerTy} {n : Int}

/-- The number of the type that has the pattern of another number. -/
def wrap (k : IntegerTy) (n : Int) : Int := k.number (BitVec.ofInt k.width n)

theorem holds_wrap (k : IntegerTy) (n : Int) : k.Holds (k.wrap n) := k.holds_number _

theorem ofInt_wrap (k : IntegerTy) (n : Int) : Value.ofInt (k.wrap n) k.width = .ofInt n k.width := by
  have fits := k.width_bounds.2
  rw [Value.ofInt_eq_ofVector fits, Value.ofInt_eq_ofVector fits, wrap, ofInt_number]

theorem wrap_eq_self (h : k.Holds n) : k.wrap n = n := by
  unfold Holds at h
  unfold wrap number
  cases sign : k.signed with
  | true => exact Bits.toInt_ofInt_of_inRange k.width_bounds.1 (sign ▸ h)
  | false => exact Bits.toNat_ofInt_of_inRange (sign ▸ h)

/-- The number that a type takes for a negation has the negation's pattern at the promoted width if the type
is no narrower, or if the negation is a number of the type. -/
theorem ofInt_wrap_neg_iff (h : k.Holds n) :
    Value.ofInt (k.wrap (-n)) (k.promoted .int).width = .ofInt (-n) (k.promoted .int).width ↔
      k = .int ∨ k = .long ∨ k.Holds (-n) := by
  have exact_of_holds (inside : k.Holds (-n)) :
      Value.ofInt (k.wrap (-n)) (k.promoted .int).width = .ofInt (-n) (k.promoted .int).width := by
    rw [wrap_eq_self inside]
  cases k with
  | int => exact iff_of_true (ofInt_wrap .int (-n)) (.inl rfl)
  | long => exact iff_of_true (ofInt_wrap .long (-n)) (.inr (.inl rfl))
  | byte | short | char =>
    constructor
    · intro same
      have wrapped (k : IntegerTy) (le : k.entry ≤ 32) : Bits.InRange true 32 (k.wrap (-n)) :=
        (k.holds_wrap (-n)).entry.mono le
      have equal := (wrapped _ (by decide)).eq_of_ofInt (h.neg (by decide) (by decide)) (by decide) (by decide) same
      exact .inr (.inr (equal ▸ holds_wrap _ (-n)))
    · rintro (never | never | inside)
      · cases never
      · cases never
      · exact exact_of_holds inside

end IntegerTy

namespace Effect

open Term (Carries)

variable {s : SymState} {m : Method} {v x : Local} {k : IntegerTy} {a : Term} {M : Machine} {c : Context}

/-- A local reads as the state has it as long as nothing was gathered. -/
theorem yields_ofLocal {u : SymValue} (bound : s.memory.local? (.ofLocal m v) = some u) :
    (ofLocal m v).Yields (.start s) c u (.start s) c := by
  refine Run.yields_bind.2 ⟨some u, .start s, c, ?_, Run.yields_pure.2 ⟨rfl, rfl, rfl⟩⟩
  refine Run.yields_bind.2 ⟨.start s, .start s, c, Run.yields_get.2 ⟨rfl, rfl, rfl⟩, ?_⟩
  exact Run.yields_pure.2 ⟨bound.symm, rfl, rfl⟩

/-- An integer is negated at its own width. -/
theorem yields_negate (sorted : a.OfSort k.ty.sort) : ∃ t c', (Machine.negate (.primitive k.ty a)).Yields M c
      (.primitive k.ty t) M c' ∧ t.OfSort k.ty.sort ∧
      ∀ (ρ : Valuation) n, a.denote ρ = some (.ofInt n k.width) → t.denote ρ = some (.ofInt (k.wrap (-n)) k.width) := by
  have fits := k.width_bounds.2
  have operand := sorted
  rw [k.sort_ty] at operand
  have negated : Operator.negate c.labels a = .ok (Term.bits1 c.labels .neg a) := by
    rw [Operator.negate, operand.1]
  refine ⟨_, { c with labels := c.labels + labelBlock }, ?_, sorted.negate negated, fun ρ n value => ?_⟩
  · refine Run.yields_bind.2 ⟨c.labels, M, _, Run.yields_freshLabel.2 ⟨rfl, rfl, rfl⟩, ?_⟩
    refine Run.yields_bind.2 ⟨_, M, _, Run.yields_lift.2 ⟨negated, rfl, rfl⟩, ?_⟩
    exact Run.yields_pure.2 ⟨rfl, rfl, rfl⟩
  · rw [Value.ofInt_eq_ofVector fits] at value
    rw [Term.denote_bits1 operand value, k.ofInt_wrap, Value.ofInt_eq_ofVector fits, Bits.UnaryOp.onVector,
      BitVec.ofInt_neg]

/-- Assigning the negation of an integer local binds the target to a term that shows the number which the
operand's type takes for the negation. -/
theorem yields_assign_neg (bound : s.memory.local? (.ofLocal m v) = some (.primitive k.ty a))
    (sorted : a.OfSort k.ty.sort) (declared : x.ty = (k.promoted .int).ty) :
    ∃ r M c', (ofInstruction m (.assign (.loc x) (.neg (.loc v)))).Yields (.start s) c .goOn M c' ∧
      (∀ l, (s.updateAll l M.pending).memory.local? (.ofLocal m x) = some (.primitive x.ty r)) ∧
      ∀ env n, k.Shows env a n → r.eval env = .ok (.ofInt (k.wrap (-n)) (k.promoted .int).width) := by
  obtain ⟨t, c₁, negation, negated, wrapped⟩ := yields_negate (M := .start s) (c := c) sorted
  obtain ⟨r, c₂, widening, carries⟩ := Machine.yields_cast negated (k.promoted .int) (.start s) c₁
  rw [← declared] at widening
  let binding := Update.bind (.ofLocal m x) (.primitive x.ty r)
  refine ⟨r, (Machine.start s).gathered binding, c₂, ?_, fun l => ?_, fun env n h => ?_⟩
  · refine Run.yields_bind.2 ⟨(), _, c₂, ?_, Run.yields_pure.2 ⟨rfl, rfl, rfl⟩⟩
    refine Run.yields_bind.2 ⟨.primitive k.ty t, .start s, c₁, ?_, ?_⟩
    · exact Run.yields_bind.2 ⟨_, .start s, c, yields_ofLocal bound, negation⟩
    · exact Run.yields_bind.2 ⟨_, .start s, c₂, widening, Run.yields_modify.2 ⟨rfl, rfl⟩⟩
  · exact SymState.local?_updateAll_bind l s [] _ _
  · rw [← Term.value?_eq_some, Term.value?_eq_denote]
    exact carries.value _ _ (k.holds_wrap (-n)) (wrapped _ n h.denote)

/-- The negation is taken at the operand's own width and widened as a number of the operand's type. It is the
negation of the promoted number if and only if the operand is an `int` or a `long`, or the negation is a
number of its type as well. -/
theorem yields_negation (bound : s.memory.local? (.ofLocal m v) = some (.primitive k.ty a))
    (sorted : a.OfSort k.ty.sort) (declared : x.ty = (k.promoted .int).ty) (c : Context) :
    ∃ r M c', (ofInstruction m (.assign (.loc x) (.neg (.loc v)))).Yields (.start s) c .goOn M c' ∧
      (∀ l, (s.updateAll l M.pending).memory.local? (.ofLocal m x) = some (.primitive x.ty r)) ∧
      (∀ env : Assignment, env.WellSorted [a] → ∃ n, k.Shows env a n) ∧
      ∀ env n, k.Shows env a n → r.eval env = .ok (.ofInt (k.wrap (-n)) (k.promoted .int).width) ∧
        (r.eval env = .ok (.ofInt (-n) (k.promoted .int).width) ↔ k = .int ∨ k = .long ∨ k.Holds (-n)) := by
  obtain ⟨r, M, c', run, binding, value⟩ := yields_assign_neg (c := c) bound sorted declared
  refine ⟨r, M, c', run, binding, fun env known => IntegerTy.exists_shows sorted known, fun env n h => ?_⟩
  refine ⟨value env n h, ?_⟩
  rw [value env n h, Except.ok.injEq]
  exact IntegerTy.ofInt_wrap_neg_iff h.holds

section Samples

def sampleMethod : Method := ⟨"A", "run", [], .void⟩

def target : Local := ⟨"x", .int⟩

/-- A state where a local of an integer type is bound to a constant. -/
def holding (k : IntegerTy) : SymState where
  constraints := []
  memory := Memory.empty.bind (.ofLocal sampleMethod ⟨"v", k.ty⟩) (.primitive k.ty (.var 1 "number" k.ty.sort))
  nextAddress := 1

theorem holding_bound (k : IntegerTy) : (holding k).memory.local? (.ofLocal sampleMethod ⟨"v", k.ty⟩) =
    some (.primitive k.ty (.var 1 "number" k.ty.sort)) :=
  (Memory.local?_bind ..).trans (if_pos rfl)

def showing (k : IntegerTy) (n : Int) : Assignment := .ofList [("number", .ofInt n k.width)]

/-- The number -5 is negated, the least number of `byte` stays. -/
theorem yields_negation_byte : ∃ r M c',
    (ofInstruction sampleMethod (.assign (.loc target) (.neg (.loc ⟨"v", .byte⟩)))).Yields
      (.start (holding .byte)) {} .goOn M c' ∧
    ((holding .byte).updateAll 1000 M.pending).memory.local? (.ofLocal sampleMethod target) =
      some (.primitive .int r) ∧
    r.eval (showing .byte (-5)) = .ok (.ofInt 5 32) ∧ r.eval (showing .byte (-128)) = .ok (.ofInt (-128) 32) := by
  obtain ⟨r, M, c', run, binding, -, value⟩ :=
    yields_negation (x := target) (holding_bound .byte) (.var "number" rfl) rfl {}
  have five : IntegerTy.byte.Shows (showing .byte (-5)) (.var 1 "number" (.bitVec 8)) (-5) := ⟨by decide, rfl⟩
  have least : IntegerTy.byte.Shows (showing .byte (-128)) (.var 1 "number" (.bitVec 8)) (-128) := ⟨by decide, rfl⟩
  refine ⟨r, M, c', run, binding 1000, ?_, ?_⟩
  · exact (value _ _ five).2.2 (.inr (.inr (by decide)))
  · exact (value _ _ least).1

/-- The negation of the letter 97 is not -97 but that modulo the size of `char`. -/
theorem negation_of_letter : ∃ r M c',
    (ofInstruction sampleMethod (.assign (.loc target) (.neg (.loc ⟨"v", .char⟩)))).Yields
      (.start (holding .char)) {} .goOn M c' ∧
    ((holding .char).updateAll 1000 M.pending).memory.local? (.ofLocal sampleMethod target) =
      some (.primitive .int r) ∧
    r.eval (showing .char 97) = .ok (.ofInt 65439 32) ∧ r.eval (showing .char 97) ≠ .ok (.ofInt (-97) 32) := by
  obtain ⟨r, M, c', run, binding, value⟩ := yields_assign_neg (c := {}) (x := target) (holding_bound .char)
    (.var "number" rfl) rfl
  have letter : IntegerTy.char.Shows (showing .char 97) (.var 1 "number" (.bitVec 16)) 97 := ⟨by decide, rfl⟩
  have wrapped : r.eval (showing .char 97) = .ok (.ofInt 65439 32) := value _ _ letter
  refine ⟨r, M, c', run, binding 1000, wrapped, ?_⟩
  rw [wrapped]
  intro same
  cases same

end Samples

end Effect
end SinkReach
