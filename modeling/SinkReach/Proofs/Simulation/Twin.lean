import Mathlib.Data.List.Forall2
import Mathlib.Logic.Equiv.Basic
import SinkReach.Proofs.Term.Folding
import SinkReach.Symbolic.Machine

/-!
Terms of two runs that correspond. The left run is one of merged states, the right run follows a single
path. The two allocate objects at different addresses, number types differently and name their unknowns
differently; a bridge says how the values of one run carry over to the other, and links record which
unknowns, objects and types belong together. Twins are terms whose values carry over for every bridge
that respects the links.
-/
namespace SinkReach

/-- What a value stands for, which decides how it carries over. -/
inductive Role where
  | plain
  | address
  | tag
  | array (element : Role)

/-- Role of the values of a type. -/
def Ty.role (ty : Ty) : Role := if ty.isReference then .address else .plain

/-- Valuations of two runs, with the way addresses and type tags carry over from left to right. -/
structure Bridge where
  left : Valuation
  right : Valuation
  address : Equiv.Perm Nat
  tag : Equiv.Perm Nat
  left_sorted : left.WellSorted
  right_sorted : right.WellSorted
  address_null : address 0 = 0

namespace Bridge

/-- A left value carries over to a right one. -/
def Carries (E : Bridge) : Role → Value → Value → Prop
  | .plain, v, v' => v = v'
  | .address, v, v' => ∃ x, v = .bitVec x 32 ∧ v' = .bitVec (E.address x) 32
  | .tag, v, v' => ∃ x, v = .bitVec x 32 ∧ v' = .bitVec (E.tag x) 32
  | .array r, v, v' => ∃ a a', v = .array a ∧ v' = .array a' ∧
    ∀ x, x < 2 ^ 32 → E.Carries r (a.get (.bitVec x 32)) (a'.get (.bitVec (E.address x) 32))

/-- Values of two constants carry over. -/
def CarriesConst (E : Bridge) (r : Role) (x y : String × TermSort) : Prop :=
  ∃ v v', E.left x.1 x.2 = some v ∧ E.right y.1 y.2 = some v' ∧ E.Carries r v v'

end Bridge

/-- A left term and the right constant that has its value. -/
structure ConstLink where
  term : Term
  name : String
  sort : TermSort
  role : Role

/-- Name of the linked term if that is a constant of the link's sort. -/
def ConstLink.source? (k : ConstLink) : Option String :=
  match k.term with
  | .leaf _ (.var name s) => if s = k.sort then some name else none
  | _ => none

/-- Values of the sort may be in the role. -/
def Role.Suits : Role → TermSort → Prop
  | plain, _ => True
  | address, s | tag, s => s = Address.sort
  | array r, .array i e => i = Address.sort ∧ r.Suits e
  | array _, _ => False

/-- The link is between a well-sorted term and a constant of its sort. -/
structure ConstLink.Sound (k : ConstLink) : Prop where
  sorted : k.term.wellSorted TermSort.valued = true
  sort : k.term.sort = k.sort
  suits : k.role.Suits k.sort

/-- Constants, objects and types of two runs that belong together. -/
structure Links where
  consts : List ConstLink
  objects : List (Nat × Nat)
  types : List (Nat × Nat)

namespace Links

def empty : Links := ⟨[], [], []⟩

instance : LE Links := ⟨fun κ κ' =>
  κ.consts ⊆ κ'.consts ∧ κ.objects ⊆ κ'.objects ∧ κ.types ⊆ κ'.types⟩

theorem le_refl (κ : Links) : κ ≤ κ := ⟨fun _ h => h, fun _ h => h, fun _ h => h⟩

theorem le_trans {κ κ' κ'' : Links} (h : κ ≤ κ') (h' : κ' ≤ κ'') : κ ≤ κ'' :=
  ⟨fun _ hx => h'.1 (h.1 hx), fun _ hx => h'.2.1 (h.2.1 hx), fun _ hx => h'.2.2 (h.2.2 hx)⟩

end Links

/-- The values that a bridge carries over include those that are linked. -/
structure Bridge.Respects (E : Bridge) (κ : Links) : Prop where
  consts : ∀ k ∈ κ.consts, ∃ v v', k.term.denote E.left = some v ∧
    E.right k.name k.sort = some v' ∧ E.Carries k.role v v'
  objects : ∀ o ∈ κ.objects, E.address (o.1 % 2 ^ 32) = o.2 % 2 ^ 32
  types : ∀ i ∈ κ.types, E.tag (i.1 % 2 ^ 32) = i.2 % 2 ^ 32

theorem Bridge.Respects.mono {E : Bridge} {κ κ' : Links} (h : E.Respects κ') (le : κ ≤ κ') :
    E.Respects κ :=
  ⟨fun k hk => h.consts k (le.1 hk), fun o ho => h.objects o (le.2.1 ho),
    fun i hi => h.types i (le.2.2 hi)⟩

/-- The fields of a program, and bridges under which their initial arrays and the array of tags carry
over. In a mirrored scene only constants are linked. -/
structure Scene where
  fields : Field → Prop
  bridges : Bridge → Prop
  mirrored : Prop
  coherent : ∀ f g, fields f → fields g → (Chunk.ofField f == Chunk.ofField g) = true → f.ty = g.ty
  field_carries : ∀ E, bridges E → ∀ f, fields f → E.CarriesConst (.array f.ty.role)
    ((Chunk.ofField f).id, (Chunk.ofField f).sort) ((Chunk.ofField f).id, (Chunk.ofField f).sort)
  tags_carry : ∀ E, bridges E → E.CarriesConst (.array .tag)
    (Registry.arrayName, .array Address.sort (.bitVec 32))
    (Registry.arrayName, .array Address.sort (.bitVec 32))

/-- Whether values of the role are no arrays. -/
def Role.flat : Role → Bool
  | array _ => false
  | plain | address | tag => true

theorem Value.same_bitVec (x y w : Nat) : (bitVec x w).same (bitVec y w) = (x == y) := by
  rw [same_eq_sameScalar (.inl rfl), sameScalar, BEq.rfl, Bool.and_true]

theorem Bridge.Carries.same {E : Bridge} {r : Role} (flat : r.flat = true) {v v' w w' : Value}
    (hv : E.Carries r v v') (hw : E.Carries r w w') : v.same w = v'.same w' := by
  cases r with
  | plain =>
    cases hv
    cases hw
    rfl
  | address =>
    obtain ⟨x, rfl, rfl⟩ := hv
    obtain ⟨y, rfl, rfl⟩ := hw
    rw [Value.same_bitVec, Value.same_bitVec, Bool.eq_iff_iff, beq_iff_eq, beq_iff_eq,
      E.address.injective.eq_iff]
  | tag =>
    obtain ⟨x, rfl, rfl⟩ := hv
    obtain ⟨y, rfl, rfl⟩ := hw
    rw [Value.same_bitVec, Value.same_bitVec, Bool.eq_iff_iff, beq_iff_eq, beq_iff_eq,
      E.tag.injective.eq_iff]
  | array r => cases flat

/-- A constant that is linked, or an array that both runs start with. -/
inductive Scene.Names (S : Scene) (κ : Links) : String × TermSort → Prop
  | linked {k : ConstLink} : k ∈ κ.consts → S.Names κ (k.name, k.sort)
  | field {f : Field} : S.fields f → S.Names κ ((Chunk.ofField f).id, (Chunk.ofField f).sort)
  | tags : S.Names κ (Registry.arrayName, .array Address.sort (.bitVec 32))

theorem Scene.Names.mono {S : Scene} {κ κ' : Links} {x : String × TermSort} (h : S.Names κ x)
    (le : κ ≤ κ') : S.Names κ' x := by
  cases h with
  | linked hk => exact .linked (le.1 hk)
  | field hf => exact .field hf
  | tags => exact .tags

/-- Well-sorted terms of one sort whose values carry over under every bridge of the scene that respects
the links. -/
structure Twin (S : Scene) (κ : Links) (r : Role) (a a' : Term) : Prop where
  sorted : a.wellSorted TermSort.valued = true
  sorted' : a'.wellSorted TermSort.valued = true
  sort : a.sort = a'.sort
  named : ∀ x ∈ a'.vars, S.Names κ x
  carries : ∀ E, S.bridges E → E.Respects κ →
    ∃ v v', a.denote E.left = some v ∧ a'.denote E.right = some v' ∧ E.Carries r v v'

/-- Twins with equal values of a sort. -/
def Plain (S : Scene) (κ : Links) (s : TermSort) (a a' : Term) : Prop :=
  Twin S κ .plain a a' ∧ a.sort = s

namespace Twin

open Term

variable {S : Scene} {κ : Links} {r : Role} {a a' b b' c c' : Term} {l d : Label}

theorem mono {κ' : Links} (h : Twin S κ r a a') (le : κ ≤ κ') : Twin S κ' r a a' where
  sorted := h.sorted
  sorted' := h.sorted'
  sort := h.sort
  named := fun x hx => (h.named x hx).mono le
  carries := fun E hE respects => h.carries E hE (respects.mono le)

/-- Terms that stand for twins are twins. -/
theorem of_stands (h : Twin S κ r a a') {t t' : Term} (ht : Stands t a) (ht' : Stands t' a') :
    Twin S κ r t t' where
  sorted := ht.sorted
  sorted' := ht'.sorted
  sort := ht.sort.trans (h.sort.trans ht'.sort.symm)
  named := fun x hx => h.named x (ht'.vars hx)
  carries := fun E hE respects => by
    rw [ht.denote _ E.left_sorted, ht'.denote _ E.right_sorted]
    exact h.carries E hE respects

/-- Values of plain twins are equal. -/
theorem value_eq (h : Twin S κ .plain a a') {E : Bridge} (hE : S.bridges E) (respects : E.Respects κ) :
    ∃ v, a.denote E.left = some v ∧ a'.denote E.right = some v := by
  obtain ⟨v, v', hv, hv', rfl⟩ := h.carries E hE respects
  exact ⟨v, hv, hv'⟩

theorem literal {atom : Atom} (notVar : ∀ name s, atom ≠ .var name s)
    (h : (leaf l atom).wellSorted TermSort.valued = true) :
    Twin S κ .plain (leaf l atom) (leaf d atom) where
  sorted := h
  sorted' := h
  sort := rfl
  named := by
    cases atom with
    | var name s => exact absurd rfl (notVar name s)
    | bool | bitVec | float => exact fun x hx => nomatch hx
  carries := fun E _ _ => by
    obtain ⟨v, hv, -⟩ := denote_hasSort E.left_sorted h
    refine ⟨v, v, hv, ?_, rfl⟩
    rw [← hv]
    cases atom with
    | var name s => exact absurd rfl (notVar name s)
    | bool | bitVec | float => rfl

theorem ofInt (n : Int) {w : Nat} (low : 1 ≤ w) (high : w ≤ 64) :
    Twin S κ .plain (Term.ofInt l n w) (Term.ofInt d n w) := by
  refine literal (by simp) ?_
  rw [wellSorted, Bool.and_eq_true]
  exact ⟨decide_eq_true ⟨low, high⟩, decide_eq_true (Bits.ofInt_lt n high)⟩

theorem unary {o : UnaryOp} (h : Twin S κ .plain a a') (accepts : o.accepts a.sort = true)
    (valued : (o.result a.sort).valued = true) :
    Twin S κ .plain (Term.unary l o a) (Term.unary d o a') where
  sorted := by
    rw [wellSorted, sort_unary, valued, accepts, h.sorted]
    rfl
  sorted' := by
    rw [wellSorted, sort_unary, ← h.sort, valued, accepts, h.sorted']
    rfl
  sort := by rw [sort_unary, sort_unary, h.sort]
  named := h.named
  carries := fun E hE respects => by
    obtain ⟨v, hv, hv'⟩ := h.value_eq hE respects
    obtain ⟨w, hw, sw⟩ := denote_hasSort E.left_sorted h.sorted
    cases hv.symm.trans hw
    obtain ⟨u, hu, -⟩ := o.denote_hasSort sw accepts valued
    refine ⟨u, u, ?_, ?_, rfl⟩
    · rw [denote, hv]
      exact hu
    · rw [denote, hv']
      exact hu

theorem binary {o : BinaryOp} (ha : Twin S κ .plain a a') (hb : Twin S κ .plain b b')
    (accepts : o.accepts a.sort b.sort = true) (valued : (o.result a.sort).valued = true) :
    Twin S κ .plain (Term.binary l o a b) (Term.binary d o a' b') where
  sorted := by
    rw [wellSorted, sort_binary, valued, accepts, ha.sorted, hb.sorted]
    rfl
  sorted' := by
    rw [wellSorted, sort_binary, ← ha.sort, ← hb.sort, valued, accepts, ha.sorted', hb.sorted']
    rfl
  sort := by rw [sort_binary, sort_binary, ha.sort]
  named := fun x hx => (List.mem_append.1 hx).elim (ha.named x) (hb.named x)
  carries := fun E hE respects => by
    obtain ⟨v, hv, hv'⟩ := ha.value_eq hE respects
    obtain ⟨w, hw, hw'⟩ := hb.value_eq hE respects
    obtain ⟨v₁, hv₁, sv⟩ := denote_hasSort E.left_sorted ha.sorted
    obtain ⟨w₁, hw₁, sw⟩ := denote_hasSort E.left_sorted hb.sorted
    cases hv.symm.trans hv₁
    cases hw.symm.trans hw₁
    obtain ⟨u, hu, -⟩ := o.denote_hasSort sv sw accepts valued
    refine ⟨u, u, ?_, ?_, rfl⟩
    · rw [denote, hv, hw]
      exact hu
    · rw [denote, hv', hw']
      exact hu

theorem fold {t t' : Term} (h : Twin S κ r t t') : Twin S κ r t.fold t'.fold :=
  h.of_stands (fold_stands h.sorted) (fold_stands h.sorted')

theorem rawIte (hc : Twin S κ .plain c c') (ha : Twin S κ r a a') (hb : Twin S κ r b b')
    (isBool : c.sort = .bool) (sorts : a.sort = b.sort) :
    Twin S κ r (ternary l .ite c a b) (ternary d .ite c' a' b') where
  sorted := by
    rw [wellSorted, sort_ite, admissible_sort rfl ha.sorted, hc.sorted, ha.sorted, hb.sorted, isBool,
      sorts]
    simp [TernaryOp.accepts]
  sorted' := by
    rw [wellSorted, sort_ite, admissible_sort rfl ha.sorted', hc.sorted', ha.sorted', hb.sorted',
      ← hc.sort, ← ha.sort, ← hb.sort, isBool, sorts]
    simp [TernaryOp.accepts]
  sort := ha.sort
  named := fun x hx => by
    rcases List.mem_append.1 hx with hx | hx
    · exact (List.mem_append.1 hx).elim (hc.named x) (ha.named x)
    · exact hb.named x hx
  carries := fun E hE respects => by
    obtain ⟨u, hu, hu'⟩ := hc.value_eq hE respects
    obtain ⟨condition, hcond⟩ := denote_bool E.left_sorted hc.sorted isBool
    cases hu.symm.trans hcond
    simp only [denote, hu, hu']
    cases condition with
    | true => exact ha.carries E hE respects
    | false => exact hb.carries E hE respects

theorem ite (hc : Twin S κ .plain c c') (ha : Twin S κ r a a') (hb : Twin S κ r b b')
    (isBool : c.sort = .bool) (sorts : a.sort = b.sort) :
    Twin S κ r (Term.ite l c a b) (Term.ite d c' a' b') ∧ (Term.ite l c a b).sort = a.sort := by
  have raw := hc.rawIte (l := l) (d := d) ha hb isBool sorts
  exact ⟨raw.of_stands (ite_stands raw.sorted) (ite_stands raw.sorted'), (ite_stands raw.sorted).sort⟩

theorem items_of_plain {ts ts' : List Term} (h : List.Forall₂ (Plain S κ .bool) ts ts') :
    wellSortedBools TermSort.valued ts = true ∧ wellSortedBools TermSort.valued ts' = true ∧
      (∀ x ∈ varsAll ts', S.Names κ x) ∧ ∀ E, S.bridges E → E.Respects κ →
        ∀ absorbing, denoteItems E.left absorbing ts = denoteItems E.right absorbing ts' := by
  induction h with
  | nil => exact ⟨rfl, rfl, by simp [varsAll], fun _ _ _ _ => rfl⟩
  | @cons t t' ts ts' head _ ih =>
    obtain ⟨twin, isBool⟩ := head
    obtain ⟨sorted, sorted', named, denotes⟩ := ih
    refine ⟨?_, ?_, ?_, fun E hE respects absorbing => ?_⟩
    · simp [wellSortedBools, isBool, twin.sorted, sorted]
    · simp [wellSortedBools, ← twin.sort, isBool, twin.sorted', sorted']
    · exact fun x hx => (List.mem_append.1 hx).elim (twin.named x) (named x)
    · obtain ⟨v, hv, hv'⟩ := twin.value_eq hE respects
      rw [denoteItems, denoteItems, hv, hv', denotes E hE respects absorbing]

theorem junction {o : Junction} {ts ts' : List Term} (h : List.Forall₂ (Plain S κ .bool) ts ts') :
    Twin S κ .plain (Term.junction l o ts) (Term.junction d o ts') := by
  obtain ⟨sorted, sorted', named, denotes⟩ := items_of_plain h
  refine ⟨sorted, sorted', rfl, named, fun E hE respects => ?_⟩
  obtain ⟨v, hv, -⟩ := denote_hasSort (t := .junction l o ts) E.left_sorted sorted
  refine ⟨v, v, hv, ?_, rfl⟩
  rw [denote] at hv ⊢
  rw [← denotes E hE respects, hv]

theorem join {o : Junction} {ts ts' : List Term} (h : List.Forall₂ (Plain S κ .bool) ts ts') :
    Plain S κ .bool (Term.join l o ts) (Term.join d o ts') := by
  have raw := junction (l := l) (d := d) (o := o) h
  exact ⟨raw.of_stands (join_stands raw.sorted) (join_stands raw.sorted'), (join_stands raw.sorted).sort⟩

/-- Equality carries over for every role but arrays. -/
theorem rawEq (flat : r.flat = true) (ha : Twin S κ r a a') (hb : Twin S κ r b b')
    (sorts : a.sort = b.sort) : Twin S κ .plain (Term.binary l .eq a b) (Term.binary d .eq a' b') where
  sorted := by
    rw [wellSorted, ha.sorted, hb.sorted]
    simp [BinaryOp.accepts, sorts, Term.sort, TermSort.valued]
  sorted' := by
    rw [wellSorted, ha.sorted', hb.sorted']
    simp [BinaryOp.accepts, ← ha.sort, ← hb.sort, sorts, Term.sort, TermSort.valued]
  sort := rfl
  named := fun x hx => (List.mem_append.1 hx).elim (ha.named x) (hb.named x)
  carries := fun E hE respects => by
    obtain ⟨v, v', hv, hv', carries⟩ := ha.carries E hE respects
    obtain ⟨w, w', hw, hw', carries'⟩ := hb.carries E hE respects
    refine ⟨.bool (v.same w), .bool (v'.same w'), ?_, ?_, congrArg _ (carries.same flat carries')⟩
    · rw [denote, hv, hw]
      rfl
    · rw [denote, hv', hw']
      rfl

theorem eq (flat : r.flat = true) (ha : Twin S κ r a a') (hb : Twin S κ r b b')
    (sorts : a.sort = b.sort) (scalar : a.sort.isArray = false) :
    Plain S κ .bool (Term.eq l a b) (Term.eq d a' b') := by
  have raw := ha.rawEq (l := l) (d := d) flat hb sorts
  have stands := eq_stands raw.sorted scalar
  exact ⟨raw.of_stands stands (eq_stands raw.sorted' (ha.sort ▸ scalar)), stands.sort⟩

/-- A linked term and its constant are twins. -/
theorem linked {k : ConstLink} (h : k ∈ κ.consts) (sound : k.Sound) :
    Twin S κ k.role k.term (Term.var d k.name k.sort) where
  sorted := sound.sorted
  sorted' := by
    have valued : k.sort.valued = true := sound.sort ▸ admissible_sort rfl sound.sorted
    rw [Term.var, wellSorted, Bool.and_eq_true]
    exact ⟨valued, rfl⟩
  sort := sound.sort
  named := fun x hx => by
    cases List.mem_singleton.1 hx
    exact .linked h
  carries := fun _ _ respects => respects.consts k h

theorem null : Twin S κ .address (Address.null l) (Address.null d) where
  sorted := rfl
  sorted' := rfl
  sort := rfl
  named := fun _ hx => nomatch hx
  carries := fun E _ _ => ⟨_, _, rfl, rfl, 0, rfl, by rw [E.address_null]; rfl⟩

theorem ofInt_natCast (n : Nat) : Bits.ofInt n 32 = n % 2 ^ 32 := by
  rw [Bits.ofInt, Bits.modulus_of_le (by decide)]
  omega

/-- Addresses of linked objects are twins. -/
theorem object {o : Nat × Nat} (h : o ∈ κ.objects) :
    Twin S κ .address (Term.ofInt l o.1 Address.width) (Term.ofInt d o.2 Address.width) where
  sorted := (ofInt (S := S) (κ := κ) (d := l) o.1 (by decide) (by decide)).sorted
  sorted' := (ofInt (S := S) (κ := κ) (l := l) o.2 (by decide) (by decide)).sorted'
  sort := rfl
  named := fun _ hx => nomatch hx
  carries := fun E _ respects => by
    refine ⟨_, _, rfl, rfl, o.1 % 2 ^ 32, ?_, ?_⟩
    · rw [← ofInt_natCast]
      rfl
    · rw [respects.objects o h, ← ofInt_natCast]
      rfl

theorem address_lt (h : Twin S κ .address a a') (isAddress : a.sort = Address.sort) {E : Bridge}
    (hE : S.bridges E) (respects : E.Respects κ) : ∃ x, x < 2 ^ 32 ∧
      a.denote E.left = some (.bitVec x 32) ∧ a'.denote E.right = some (.bitVec (E.address x) 32) := by
  obtain ⟨v, v', hv, hv', x, rfl, rfl⟩ := h.carries E hE respects
  obtain ⟨y, hy, lt⟩ := denote_bits E.left_sorted h.sorted isAddress
  cases hv.symm.trans hy
  exact ⟨x, lt, hv, hv'⟩

theorem select {s : TermSort} (ha : Twin S κ (.array r) a a') (sort : a.sort = .array Address.sort s)
    (hb : Twin S κ .address b b') (isAddress : b.sort = Address.sort) :
    Twin S κ r (Term.select l a b) (Term.select d a' b') where
  sorted := by
    have valued := admissible_sort rfl ha.sorted
    rw [sort, TermSort.valued, Bool.and_eq_true] at valued
    rw [Term.select, wellSorted, sort_binary, ha.sorted, hb.sorted, sort, isAddress]
    simp [BinaryOp.accepts, BinaryOp.result, TermSort.element?, valued.2]
  sorted' := by
    have valued := admissible_sort rfl ha.sorted
    rw [sort, TermSort.valued, Bool.and_eq_true] at valued
    rw [Term.select, wellSorted, sort_binary, ha.sorted', hb.sorted', ← ha.sort, ← hb.sort, sort,
      isAddress]
    simp [BinaryOp.accepts, BinaryOp.result, TermSort.element?, valued.2]
  sort := by rw [Term.select, Term.select, sort_binary, sort_binary, ha.sort]
  named := fun x hx => (List.mem_append.1 hx).elim (ha.named x) (hb.named x)
  carries := fun E hE respects => by
    obtain ⟨_, _, hv, hv', x, x', rfl, rfl, elements⟩ := ha.carries E hE respects
    obtain ⟨i, lt, hi, hi'⟩ := hb.address_lt isAddress hE respects
    refine ⟨_, _, ?_, ?_, elements i lt⟩
    · rw [Term.select, denote, hv, hi]
      rfl
    · rw [Term.select, denote, hv', hi']
      rfl

theorem store {s : TermSort} (ha : Twin S κ (.array r) a a') (sort : a.sort = .array Address.sort s)
    (hb : Twin S κ .address b b') (isAddress : b.sort = Address.sort) (hc : Twin S κ r c c')
    (element : c.sort = s) : Twin S κ (.array r) (Term.store l a b c) (Term.store d a' b' c') where
  sorted := by
    rw [Term.store, wellSorted, sort_store, admissible_sort rfl ha.sorted, ha.sorted, hb.sorted,
      hc.sorted, sort, isAddress, element]
    simp [TernaryOp.accepts]
  sorted' := by
    rw [Term.store, wellSorted, sort_store, admissible_sort rfl ha.sorted', ha.sorted', hb.sorted',
      hc.sorted', ← ha.sort, ← hb.sort, ← hc.sort, sort, isAddress, element]
    simp [TernaryOp.accepts]
  sort := ha.sort
  named := fun x hx => by
    rcases List.mem_append.1 hx with hx | hx
    · exact (List.mem_append.1 hx).elim (ha.named x) (hb.named x)
    · exact hc.named x hx
  carries := fun E hE respects => by
    obtain ⟨_, _, hv, hv', x, x', rfl, rfl, elements⟩ := ha.carries E hE respects
    obtain ⟨i, lt, hi, hi'⟩ := hb.address_lt isAddress hE respects
    obtain ⟨w, w', hw, hw', carries⟩ := hc.carries E hE respects
    refine ⟨.array (x.set (.bitVec i 32) w), .array (x'.set (.bitVec (E.address i) 32) w'), ?_, ?_,
      _, _, rfl, rfl, fun j hj => ?_⟩
    · rw [Term.store, denote, hv, hi, hw]
      rfl
    · rw [Term.store, denote, hv', hi', hw']
      rfl
    · rw [ArrayValue.get_set rfl, ArrayValue.get_set rfl, Value.same_bitVec, Value.same_bitVec]
      by_cases hit : i = j
      · simpa [hit] using carries
      · simpa [hit, E.address.injective.ne hit] using elements j hj

end Twin
end SinkReach
