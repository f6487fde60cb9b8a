import SinkReach.Proofs.Ieee.Arithmetic
import SinkReach.Proofs.Term.Denotation

/-!
Sameness of values that are not arrays, and evaluation up to it: a term under two assignments of the
same values has the same values, which matters because all NaNs count as one.
-/
namespace SinkReach

namespace Value

/-- Two values that are not arrays are the same. -/
inductive Alike : Value → Value → Prop
  | bool (b : Bool) : Alike (.bool b) (.bool b)
  | bitVec (bits width : Nat) : Alike (.bitVec bits width) (.bitVec bits width)
  | float {p : Precision} {x y : Nat} : p.Alike x y → Alike (.float p x) (.float p y)

theorem sameScalar_iff {v w : Value} : v.sameScalar w = true ↔ v.Alike w := by
  constructor
  · intro h
    cases v <;> cases w <;> simp only [sameScalar, Bool.false_eq_true, Bool.and_eq_true,
      Bool.or_eq_true, beq_iff_eq] at h
    · exact h ▸ .bool _
    · exact h.1 ▸ h.2 ▸ .bitVec _ _
    · exact h.1 ▸ .float h.2.symm
  · intro h
    cases h with
    | bool b => simp [sameScalar]
    | bitVec bits width => simp [sameScalar]
    | float h => simpa [sameScalar] using h.symm

/-- Whether the value is no array. -/
def isScalar : Value → Bool
  | array _ => false
  | _ => true

theorem same_eq_sameScalar {v w : Value} (h : v.isScalar = true ∨ w.isScalar = true) :
    v.same w = v.sameScalar w := by
  cases v <;> cases w <;> simp_all [same, isScalar]

theorem same_iff_alike {v w : Value} (h : v.isScalar = true ∨ w.isScalar = true) :
    v.same w = true ↔ v.Alike w := by rw [same_eq_sameScalar h, sameScalar_iff]

theorem Alike.scalar {v w : Value} (h : v.Alike w) : v.isScalar = true ∧ w.isScalar = true := by
  cases h <;> exact ⟨rfl, rfl⟩

theorem Alike.of_isScalar {v : Value} (h : v.isScalar = true) : v.Alike v := by
  cases v with
  | bool b => exact .bool b
  | bitVec bits width => exact .bitVec bits width
  | float p x => exact .float (.refl x)
  | array a => cases h

theorem Alike.symm {v w : Value} (h : v.Alike w) : w.Alike v := by
  cases h with
  | bool b => exact .bool b
  | bitVec bits width => exact .bitVec bits width
  | float h => exact .float (h.imp Eq.symm And.symm)

theorem Alike.trans {u v w : Value} (h : u.Alike v) (h' : v.Alike w) : u.Alike w := by
  cases h with
  | bool b => exact h'
  | bitVec bits width => exact h'
  | float h =>
    cases h' with
    | float h' =>
      rcases h with rfl | ⟨hx, hy⟩
      · exact .float h'
      · exact .float (.inr ⟨hx, h'.isNaN ▸ hy⟩)

theorem Alike.same_congr {v v' w w' : Value} (hv : v.Alike v') (hw : w.Alike w') :
    v.same w = v'.same w' := by
  rw [Bool.eq_iff_iff, same_iff_alike (.inl hv.scalar.1), same_iff_alike (.inl hv.scalar.2)]
  exact ⟨fun h => hv.symm.trans (h.trans hw), fun h => hv.trans (h.trans hw.symm)⟩

theorem toDouble?_alike {p : Precision} {x y : Nat} (h : p.Alike x y) :
    ∃ x' y', (float p x).toDouble? = some x' ∧ (float p y).toDouble? = some y' ∧
      Precision.double.Alike x' y' := by
  cases p with
  | single => exact ⟨_, _, rfl, rfl, h.convert⟩
  | double => exact ⟨_, _, rfl, rfl, h⟩

end Value

namespace ArrayValue

/-- Updates of an index that is the same as one that is not looked for do not matter. -/
theorem find_remove {k i : Value} (hk : k.isScalar = true) (miss : k.same i = false) :
    (a : ArrayValue) → (a.remove (·.same k)).find (·.same i) = a.find (·.same i)
  | .const d => rfl
  | .store a key v => by
    rw [remove]
    split
    next hit =>
      have alike := (Value.same_iff_alike (.inr hk)).1 hit
      have other : key.same i = false := by
        rw [← miss, Bool.eq_iff_iff, Value.same_iff_alike (.inl alike.scalar.1),
          Value.same_iff_alike (.inl hk)]
        exact ⟨fun h => alike.symm.trans h, fun h => alike.trans h⟩
      rw [find, other, find_remove hk miss a]
      rfl
    next => rw [find, find, find_remove hk miss a]

/-- An index reads the latest update of it. -/
theorem get_set {k : Value} (hk : k.isScalar = true) (a : ArrayValue) (v i : Value) :
    (a.set k v).get i = if k.same i then v else a.get i := by
  rw [set, get, find]
  split
  next => rfl
  next miss => exact find_remove hk (Bool.not_eq_true _ ▸ miss) a

end ArrayValue

/-- Both values are missing or they are the same. -/
inductive AlikeResults : Option Value → Option Value → Prop
  | absent : AlikeResults none none
  | both {v w : Value} : v.Alike w → AlikeResults (some v) (some w)

theorem AlikeResults.of_scalar {r : Option Value} (h : ∀ v, r = some v → v.isScalar = true) :
    AlikeResults r r := by
  cases r with
  | none => exact .absent
  | some v => exact .both (.of_isScalar (h v rfl))

theorem AlikeResults.bind {r r' : Option Value} {f f' : Value → Option Value}
    (h : AlikeResults r r') (hf : ∀ v v', v.Alike v' → AlikeResults (f v) (f' v')) :
    AlikeResults (r.bind f) (r'.bind f') := by
  cases h with
  | absent => exact .absent
  | both h => exact hf _ _ h

theorem AlikeResults.bool? {r r' : Option Value} (h : AlikeResults r r') :
    r.bind Value.bool? = r'.bind Value.bool? := by
  cases h with
  | absent => rfl
  | both h => cases h <;> rfl

namespace Term

open Value

theorem UnaryOp.denote_scalar {op : UnaryOp} {v r : Value} (h : op.denote v = some r) :
    r.isScalar = true := by
  cases op with
  | not | bits | signExtend | zeroExtend | extract | fpNeg | fpIsNaN =>
    cases v <;> cases h
    rfl
  | fpToFp f =>
    rw [denote_fpToFp] at h
    simp only [Option.bind_eq_some_iff, Option.map_eq_some_iff] at h
    obtain ⟨x, -, p, -, rfl⟩ := h
    rfl
  | bvToFp f =>
    cases v with
    | bool | float | array => cases h
    | bitVec x n =>
      rw [denote_bvToFp, Option.map_eq_some_iff] at h
      obtain ⟨p, -, rfl⟩ := h
      rfl
  | fpToSbv n =>
    rw [denote_fpToSbv, Option.map_eq_some_iff] at h
    obtain ⟨x, -, rfl⟩ := h
    rfl

theorem BinaryOp.denote_scalar {op : BinaryOp} {v w r : Value} (h : op.denote v w = some r)
    (other : op ≠ .select) : r.isScalar = true := by
  cases op with
  | xor | compare =>
    cases v <;> cases w <;> cases h
    rfl
  | eq =>
    cases h
    rfl
  | bits op | fp op | fpCompare op =>
    cases v <;> cases w <;> try cases h
    simp only [denote_bits, denote_fp, denote_fpCompare, Option.ite_none_right_eq_some,
      Option.some.injEq] at h
    rw [← h.2]
    rfl
  | select => exact absurd rfl other

theorem UnaryOp.denote_alike (op : UnaryOp) {v w : Value} (h : v.Alike w) :
    AlikeResults (op.denote v) (op.denote w) := by
  cases h with
  | bool b => exact .of_scalar fun _ => denote_scalar
  | bitVec x n => exact .of_scalar fun _ => denote_scalar
  | @float p x y h =>
    cases op with
    | not | bits | signExtend | zeroExtend | extract | bvToFp => exact .absent
    | fpNeg => exact .both (.float h.neg)
    | fpIsNaN =>
      change AlikeResults (some (.bool (p.isNaN x))) (some (.bool (p.isNaN y)))
      rw [h.isNaN]
      exact .both (.bool _)
    | fpToFp f =>
      obtain ⟨x', y', hx, hy, alike⟩ := toDouble?_alike h
      rw [denote_fpToFp, denote_fpToFp, hx, hy]
      cases f.precision? with
      | none => exact .absent
      | some p => exact .both (.float alike.convert)
    | fpToSbv n =>
      obtain ⟨x', y', hx, hy, alike⟩ := toDouble?_alike h
      simp only [denote_fpToSbv, hx, hy, Option.map_some, Precision.toInt64_alike alike]
      exact .both (.of_isScalar rfl)

theorem BinaryOp.denote_alike (op : BinaryOp) {v v' w w' : Value} (hv : v.Alike v')
    (hw : w.Alike w') : AlikeResults (op.denote v w) (op.denote v' w') := by
  cases op with
  | eq =>
    change AlikeResults (some (.bool (v.same w))) (some (.bool (v'.same w')))
    rw [hv.same_congr hw]
    exact .both (.bool _)
  | fp op =>
    cases hv <;> cases hw <;> try exact .absent
    rename_i p x x' hx q y y' hy
    rw [denote_fp, denote_fp]
    split
    next same =>
      subst same
      exact .both (.float (op.apply_alike hx hy))
    next => exact .absent
  | fpCompare op =>
    cases hv <;> cases hw <;> try exact .absent
    rename_i p x x' hx q y y' hy
    rw [denote_fpCompare, denote_fpCompare]
    split
    next same =>
      subst same
      rw [op.holds_alike hx hy]
      exact .both (.bool _)
    next => exact .absent
  | select => cases hv <;> exact .absent
  | xor | bits | compare =>
    cases hv <;> cases hw <;> first
      | exact .absent
      | exact .of_scalar fun _ h => denote_scalar h (by simp)

/-- Truth values of junctions whose items have the same values. -/
theorem itemsValue?_alike {env env' : Assignment} {absorbing : Bool} {items : List Term}
    (h : ∀ t ∈ items, AlikeResults (t.value? env) (t.value? env')) :
    itemsValue? env absorbing items = itemsValue? env' absorbing items := by
  induction items with
  | nil => rw [itemsValue?_nil, itemsValue?_nil]
  | cons t ts ih =>
    obtain ⟨ht, hts⟩ := List.forall_mem_cons.1 h
    rw [itemsValue?_cons, itemsValue?_cons, ht.bool?, ih hts]

/-- Two assignments of the same values, none of them an array, give a term the same value. -/
theorem value?_alike {env env' : Assignment} {t : Term}
    (h : ∀ x ∈ t.vars, AlikeResults (env.get? x.1) (env'.get? x.1)) :
    AlikeResults (t.value? env) (t.value? env') := by
  induction t with
  | leaf l a =>
    rw [value?_leaf, value?_leaf]
    cases a with
    | bool | bitVec => exact .both (.of_isScalar rfl)
    | float x f =>
      simp only [Atom.eval]
      cases f.precision? with
      | none => exact .absent
      | some p => exact .both (.of_isScalar rfl)
    | var name sort =>
      have bound := h (name, sort) (by simp [vars])
      simp only [Atom.eval]
      generalize env.get? name = r at bound
      generalize env'.get? name = r' at bound
      cases bound with
      | absent => exact .absent
      | both alike => exact .both alike
  | unary l op a iha =>
    rw [value?_unary, value?_unary]
    exact (iha h).bind fun _ _ => op.denote_alike
  | binary l op a b iha ihb =>
    rw [value?_binary, value?_binary]
    exact (iha fun x hx => h x (by simp [vars, hx])).bind fun v v' hv =>
      (ihb fun x hx => h x (by simp [vars, hx])).bind fun w w' hw => op.denote_alike hv hw
  | ternary l op a b c iha ihb ihc =>
    have ha := iha fun x hx => h x (by simp [vars, hx])
    have hb := ihb fun x hx => h x (by simp [vars, hx])
    have hc := ihc fun x hx => h x (by simp [vars, hx])
    cases op with
    | ite =>
      rw [value?_ite, value?_ite, ha.bool?]
      cases (a.value? env').bind Value.bool? with
      | none => exact .absent
      | some b => cases b with
        | false => exact hc
        | true => exact hb
    | store =>
      rw [value?_store, value?_store]
      refine ha.bind fun x x' hx => hb.bind fun k k' _ => hc.bind fun e e' _ => ?_
      cases hx <;> exact .absent
  | junction l op items ih =>
    rw [value?_junction, value?_junction,
      itemsValue?_alike fun t ht => ih t ht fun x hx => h x (vars_subset_of_mem ht hx)]
    refine .of_scalar fun v hv => ?_
    obtain ⟨b, -, rfl⟩ := Option.map_eq_some_iff.1 hv
    rfl

end Term
end SinkReach
