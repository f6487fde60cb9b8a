import Mathlib.Data.List.Nodup
import Mathlib.Data.List.Perm.Subperm
import Mathlib.Logic.Equiv.Basic
import SinkReach.Proofs.Simulation.Machine

/-!
Bridges from a valuation of one run. Linked addresses and type tags are matched one to one, so a
permutation takes one side to the other; constants of the other run are given the values that carry
over.
-/
namespace SinkReach

/-- A permutation that moves nothing outside keeps what is inside. -/
theorem perm_inside {P : Nat → Prop} {π : Equiv.Perm Nat} (fixes : ∀ x, ¬ P x → π x = x) {x : Nat}
    (hx : P x) : P (π x) := by
  by_contra outside
  have fixed : π x = x := π.injective (fixes _ outside)
  rw [fixed] at outside
  exact outside hx

/-- Pairs that match one to one are part of a permutation that moves nothing outside. -/
theorem exists_perm (P : Nat → Prop) (pairs : List (Nat × Nat)) (inside : ∀ o ∈ pairs, P o.1 ∧ P o.2)
    (matched : ∀ o ∈ pairs, ∀ u ∈ pairs, o.1 = u.1 ↔ o.2 = u.2) :
    ∃ π : Equiv.Perm Nat, (∀ o ∈ pairs, π o.1 = o.2) ∧ ∀ x, ¬ P x → π x = x := by
  induction pairs with
  | nil => exact ⟨Equiv.refl Nat, (fun _ h => nomatch h), fun _ _ => rfl⟩
  | cons o pairs ih =>
    obtain ⟨head, tail⟩ := List.forall_mem_cons.1 inside
    obtain ⟨π, hits, fixes⟩ := ih tail fun u hu u' hu' =>
      matched u (List.mem_cons_of_mem _ hu) u' (List.mem_cons_of_mem _ hu')
    refine ⟨π.trans (Equiv.swap (π o.1) o.2), List.forall_mem_cons.2 ⟨?_, fun u hu => ?_⟩, fun x hx => ?_⟩
    · exact Equiv.swap_apply_left ..
    · have both := matched u (List.mem_cons_of_mem _ hu) o List.mem_cons_self
      by_cases same : u.1 = o.1
      · rw [same, both.1 same]
        exact Equiv.swap_apply_left ..
      · rw [Equiv.trans_apply, Equiv.swap_apply_of_ne_of_ne (π.injective.ne same), hits u hu]
        rw [hits u hu]
        exact fun eq => same (both.2 eq)
    · rw [Equiv.trans_apply, fixes x hx, Equiv.swap_apply_of_ne_of_ne]
      · rintro rfl
        exact hx (perm_inside fixes head.1)
      · rintro rfl
        exact hx head.2

/-- A valuation with given values, and sample values elsewhere. -/
noncomputable def Valuation.having (P : String → TermSort → Value → Prop) : Valuation :=
  open Classical in fun name s => if h : ∃ v, P name s v then some h.choose else some s.sampleValue

namespace Valuation

variable {P : String → TermSort → Value → Prop}

theorem having_eq (unique : ∀ {name s v w}, P name s v → P name s w → v = w) {name : String}
    {s : TermSort} {v : Value} (h : P name s v) : having P name s = some v := by
  unfold having
  rw [dif_pos ⟨v, h⟩]
  exact congrArg some (unique (Exists.choose_spec ⟨v, h⟩) h)

theorem having_wellSorted (sorted : ∀ name s v, P name s v → v.hasSort s = true) :
    (having P).WellSorted := by
  intro name s valued
  unfold having
  split
  next known => exact ⟨_, rfl, sorted name s _ known.choose_spec⟩
  next => exact ⟨_, rfl, TermSort.sampleValue_hasSort valued⟩

end Valuation

namespace ArrayValue

/-- Maps indices and elements. -/
def map (f g : Value → Value) : ArrayValue → ArrayValue
  | const d => const (g d)
  | store a k v => store (a.map f g) (f k) (g v)

theorem find_map (f g : Value → Value) (test : Value → Bool) : (a : ArrayValue) →
    (a.map f g).find test = g (a.find fun k => test (f k))
  | const d => rfl
  | store a k v => by
    rw [map, find, find, find_map f g test a]
    split <;> rfl

theorem map_hasSorts {f g : Value → Value} {i e : TermSort}
    (hf : ∀ k, k.hasSort i = true → (f k).hasSort i = true)
    (hg : ∀ v, v.hasSort e = true → (g v).hasSort e = true) : (a : ArrayValue) →
    a.hasSorts i e = true → (a.map f g).hasSorts i e = true
  | const d, h => hg d h
  | store a k v, h => by
    simp only [hasSorts, Bool.and_eq_true] at h
    simp only [map, hasSorts, Bool.and_eq_true]
    exact ⟨⟨map_hasSorts hf hg a h.1.1, hf k h.1.2⟩, hg v h.2⟩

/-- Tests that agree on the indices of an array find the same element. -/
theorem find_congr {test test' : Value → Bool} {i e : TermSort}
    (same : ∀ k, k.hasSort i = true → test k = test' k) : (a : ArrayValue) →
    a.hasSorts i e = true → a.find test = a.find test'
  | const d, _ => rfl
  | store a k v, h => by
    simp only [hasSorts, Bool.and_eq_true] at h
    rw [find, find, same k h.1.2, find_congr same a h.1.1]

end ArrayValue

/-- Renames the bits of a 32-bit value. -/
def Value.rename (f : Nat → Nat) : Value → Value
  | .bitVec x w => .bitVec (f x) w
  | v => v

/-- The right value that a left one carries over to. -/
def Role.carry (address tag : Nat → Nat) : Role → Value → Value
  | .plain, v => v
  | .address, v => v.rename address
  | .tag, v => v.rename tag
  | .array r, .array a => .array (a.map (Value.rename address) (r.carry address tag))
  | .array _, v => v

section Carrying

variable {f g : Nat → Nat} {r : Role} {s : TermSort} {v : Value}

theorem Value.rename_hasSort (keeps : ∀ x, x < 2 ^ 32 → f x < 2 ^ 32) (v : Value)
    (h : v.hasSort Address.sort = true) : (v.rename f).hasSort Address.sort = true := by
  obtain ⟨x, rfl, lt⟩ := bitVec_of_hasSort h
  exact hasSort_bitVec (keeps x lt)

theorem Role.carry_hasSort (keeps : ∀ x, x < 2 ^ 32 → f x < 2 ^ 32) (keeps' : ∀ x, x < 2 ^ 32 → g x < 2 ^ 32)
    (suits : r.Suits s) (h : v.hasSort s = true) : (r.carry f g v).hasSort s = true := by
  induction r generalizing s v with
  | plain => exact h
  | address =>
    cases suits
    exact Value.rename_hasSort keeps v h
  | tag =>
    cases suits
    exact Value.rename_hasSort keeps' v h
  | array r ih =>
    cases s with
    | array i e =>
      obtain ⟨rfl, suits⟩ := suits
      obtain ⟨a, rfl, sorts⟩ := Value.array_of_hasSort h
      exact ArrayValue.map_hasSorts (Value.rename_hasSort keeps) (fun _ => ih suits) a sorts
    | bool | bitVec | float => cases suits

theorem Bridge.carries_carry (E : Bridge) (suits : r.Suits s) (h : v.hasSort s = true) :
    E.Carries r v (r.carry E.address E.tag v) := by
  induction r generalizing s v with
  | plain => rfl
  | address =>
    cases suits
    obtain ⟨x, rfl, -⟩ := Value.bitVec_of_hasSort h
    exact ⟨x, rfl, rfl⟩
  | tag =>
    cases suits
    obtain ⟨x, rfl, -⟩ := Value.bitVec_of_hasSort h
    exact ⟨x, rfl, rfl⟩
  | array r ih =>
    cases s with
    | array i e =>
      obtain ⟨rfl, suits⟩ := suits
      obtain ⟨a, rfl, sorts⟩ := Value.array_of_hasSort h
      refine ⟨a, _, rfl, rfl, fun x _ => ?_⟩
      have moved : (a.map (Value.rename E.address) (r.carry E.address E.tag)).get
          (.bitVec (E.address x) 32) = r.carry E.address E.tag (a.get (.bitVec x 32)) := by
        unfold ArrayValue.get
        rw [ArrayValue.find_map]
        refine congrArg _ (ArrayValue.find_congr (fun k hk => ?_) a sorts)
        obtain ⟨y, rfl, -⟩ := Value.bitVec_of_hasSort hk
        change (Value.bitVec (E.address y) 32).same (.bitVec (E.address x) 32) =
          (Value.bitVec y 32).same (.bitVec x 32)
        rw [Value.same_bitVec, Value.same_bitVec, Bool.eq_iff_iff, beq_iff_eq, beq_iff_eq,
          E.address.injective.eq_iff]
      rw [moved]
      exact ih suits (ArrayValue.find_hasSort _ a sorts)
    | bool | bitVec | float => cases suits

end Carrying

theorem Ty.role_suits (ty : Ty) : ty.role.Suits ty.sort := by
  unfold Ty.role
  split
  next reference => exact Ty.sort_of_reference reference
  next => trivial

/-- Constants of the right run with the values that carry over to them. -/
inductive CarriedOver (S : Scene) (κ : Links) (ρ : Valuation) (f g : Nat → Nat) :
    String → TermSort → Value → Prop
  | linked {k : ConstLink} {v : Value} : k ∈ κ.consts → k.term.denote ρ = some v →
    CarriedOver S κ ρ f g k.name k.sort (k.role.carry f g v)
  | field {fd : Field} {v : Value} : S.fields fd →
    ρ (Chunk.ofField fd).id (Chunk.ofField fd).sort = some v →
    CarriedOver S κ ρ f g (Chunk.ofField fd).id (Chunk.ofField fd).sort
      ((Role.array fd.ty.role).carry f g v)
  | tags {v : Value} : ρ Registry.arrayName (.array Address.sort (.bitVec 32)) = some v →
    CarriedOver S κ ρ f g Registry.arrayName (.array Address.sort (.bitVec 32))
      ((Role.array .tag).carry f g v)

section Bridging

variable {S : Scene} {κ : Links} {c c' : Context} {n n' : Nat} {ρ : Valuation} {f g : Nat → Nat}

theorem Tidy.const_unique (h : Tidy S κ c c' n n') {k k' : ConstLink} (hk : k ∈ κ.consts)
    (hk' : k' ∈ κ.consts) (same : k.name = k'.name) : k = k' :=
  List.inj_on_of_nodup_map h.distinct hk hk' same

/-- Fields whose arrays have one name have one type. -/
theorem Scene.ty_unique {fd gd : Field} (hf : S.fields fd) (hg : S.fields gd)
    (same : (Chunk.ofField fd).id = (Chunk.ofField gd).id) : fd.ty = gd.ty := by
  obtain ⟨classes, names⟩ := Chunk.id_injective same
  refine S.coherent fd gd hf hg ?_
  exact Bool.and_eq_true_iff.2 ⟨beq_iff_eq.2 classes, beq_iff_eq.2 names⟩

theorem Scene.Names.cases {x : String × TermSort} (h : S.Names κ x) :
    (∃ k ∈ κ.consts, x = (k.name, k.sort)) ∨
      (∃ fd, S.fields fd ∧ x = ((Chunk.ofField fd).id, (Chunk.ofField fd).sort)) ∨
      x = (Registry.arrayName, .array Address.sort (.bitVec 32)) := by
  cases h with
  | linked hk => exact .inl ⟨_, hk, rfl⟩
  | field hf => exact .inr (.inl ⟨_, hf, rfl⟩)
  | tags => exact .inr (.inr rfl)

/-- No constant has two sorts. -/
theorem Tidy.names_unique (h : Tidy S κ c c' n n') {x y : String × TermSort} (hx : S.Names κ x)
    (hy : S.Names κ y) (same : x.1 = y.1) : x = y := by
  rcases hx.cases with ⟨k, hk, rfl⟩ | ⟨fd, hf, rfl⟩ | rfl
  · have issued := h.issued k hk
    rcases hy.cases with ⟨k', hk', rfl⟩ | ⟨gd, hg, rfl⟩ | rfl
    · rw [h.const_unique hk hk' same]
    · exact absurd same.symm (issued.ne_id _)
    · exact absurd same issued.ne_arrayName
  · rcases hy.cases with ⟨k', hk', rfl⟩ | ⟨gd, hg, rfl⟩ | rfl
    · exact absurd same ((h.issued k' hk').ne_id _)
    · exact Prod.ext same (by simp only [Chunk.sort, Chunk.ofField, Scene.ty_unique hf hg same])
    · exact absurd same (Chunk.id_ne_arrayName _)
  · rcases hy.cases with ⟨k', hk', rfl⟩ | ⟨gd, hg, rfl⟩ | rfl
    · exact absurd same.symm (h.issued k' hk').ne_arrayName
    · exact absurd same.symm (Chunk.id_ne_arrayName _)
    · rfl

theorem CarriedOver.cases {name : String} {s : TermSort} {v : Value}
    (h : CarriedOver S κ ρ f g name s v) :
    (∃ k ∈ κ.consts, ∃ u, k.term.denote ρ = some u ∧ (name, s) = (k.name, k.sort) ∧
        v = k.role.carry f g u) ∨
      (∃ fd u, S.fields fd ∧ ρ (Chunk.ofField fd).id (Chunk.ofField fd).sort = some u ∧
        (name, s) = ((Chunk.ofField fd).id, (Chunk.ofField fd).sort) ∧
        v = (Role.array fd.ty.role).carry f g u) ∨
      ∃ u, ρ Registry.arrayName (.array Address.sort (.bitVec 32)) = some u ∧
        (name, s) = (Registry.arrayName, .array Address.sort (.bitVec 32)) ∧
        v = (Role.array .tag).carry f g u := by
  cases h with
  | linked hk hu => exact .inl ⟨_, hk, _, hu, rfl, rfl⟩
  | field hf hu => exact .inr (.inl ⟨_, _, hf, hu, rfl, rfl⟩)
  | tags hu => exact .inr (.inr ⟨_, hu, rfl, rfl⟩)

/-- No constant is given two values. -/
theorem Tidy.carriedOver_unique (h : Tidy S κ c c' n n') {name : String} {s : TermSort} {v w : Value}
    (hv : CarriedOver S κ ρ f g name s v) (hw : CarriedOver S κ ρ f g name s w) : v = w := by
  rcases hv.cases with ⟨k, hk, u, hu, at₁, rfl⟩ | ⟨fd, u, hf, hu, at₁, rfl⟩ | ⟨u, hu, at₁, rfl⟩
  · have issued := h.issued k hk
    rcases hw.cases with ⟨k', hk', u', hu', at₂, rfl⟩ | ⟨gd, u', hg, hu', at₂, rfl⟩ | ⟨u', hu', at₂, rfl⟩
    · obtain rfl := h.const_unique hk hk' (congrArg Prod.fst (at₁.symm.trans at₂))
      cases hu.symm.trans hu'
      rfl
    · exact absurd (congrArg Prod.fst (at₂.symm.trans at₁)) (issued.ne_id _)
    · exact absurd (congrArg Prod.fst (at₁.symm.trans at₂)) issued.ne_arrayName
  · rcases hw.cases with ⟨k', hk', u', hu', at₂, rfl⟩ | ⟨gd, u', hg, hu', at₂, rfl⟩ | ⟨u', hu', at₂, rfl⟩
    · exact absurd (congrArg Prod.fst (at₁.symm.trans at₂)) ((h.issued k' hk').ne_id _)
    · have same := at₁.symm.trans at₂
      rw [Scene.ty_unique hf hg (congrArg Prod.fst same)]
      rw [(Prod.mk.inj same).1, (Prod.mk.inj same).2] at hu
      cases hu.symm.trans hu'
      rfl
    · exact absurd (congrArg Prod.fst (at₁.symm.trans at₂)) (Chunk.id_ne_arrayName _)
  · rcases hw.cases with ⟨k', hk', u', hu', at₂, rfl⟩ | ⟨gd, u', hg, hu', at₂, rfl⟩ | ⟨u', hu', at₂, rfl⟩
    · exact absurd (congrArg Prod.fst (at₂.symm.trans at₁)) (h.issued k' hk').ne_arrayName
    · exact absurd (congrArg Prod.fst (at₂.symm.trans at₁)) (Chunk.id_ne_arrayName _)
    · cases hu.symm.trans hu'
      rfl

theorem Tidy.carriedOver_hasSort (h : Tidy S κ c c' n n') (hρ : ρ.WellSorted)
    (keeps : ∀ x, x < 2 ^ 32 → f x < 2 ^ 32) (keeps' : ∀ x, x < 2 ^ 32 → g x < 2 ^ 32) {name : String}
    {s : TermSort} {v : Value} (hv : CarriedOver S κ ρ f g name s v) : v.hasSort s = true := by
  cases hv with
  | @linked k v hk hu =>
    have sound := h.sound k hk
    obtain ⟨u, value, sort⟩ := Term.denote_hasSort hρ sound.sorted
    cases hu.symm.trans value
    exact Role.carry_hasSort keeps keeps' sound.suits (sound.sort ▸ sort)
  | @field fd v hf hu =>
    obtain ⟨u, value, sort⟩ := hρ (Chunk.ofField fd).id (Chunk.ofField fd).sort fd.ty.sort_valued
    cases hu.symm.trans value
    exact Role.carry_hasSort (s := (Chunk.ofField fd).sort) keeps keeps' ⟨rfl, fd.ty.role_suits⟩ sort
  | tags hu =>
    obtain ⟨u, value, sort⟩ := hρ Registry.arrayName (.array Address.sort (.bitVec 32)) rfl
    cases hu.symm.trans value
    exact Role.carry_hasSort (s := .array Address.sort (.bitVec 32)) keeps keeps' ⟨rfl, rfl⟩ sort

theorem Tidy.types_length_le (h : Tidy S κ c c' n n') :
    c'.registry.types.length ≤ c.registry.types.length := by
  refine (h.unrepeated.subperm fun ty hty => ?_).length_le
  obtain ⟨j, hj⟩ := Registry.mem_types_iff.1 hty
  obtain ⟨i, hi, -⟩ := h.registered ty j hj
  exact Registry.mem_types_iff.2 ⟨i, hi⟩

/-- Numbers that are neither zero nor too large for 32 bits. -/
def IsProper (x : Nat) : Prop := 1 ≤ x ∧ x < 2 ^ 32

theorem perm_lt {π : Equiv.Perm Nat} (fixes : ∀ x, ¬ IsProper x → π x = x) (x : Nat) (hx : x < 2 ^ 32) :
    π x < 2 ^ 32 := by
  by_cases proper : IsProper x
  · exact (perm_inside fixes proper).2
  · rw [fixes x proper]
    exact hx

theorem Tidy.exists_address (h : Tidy S κ c c' n n') (small : n ≤ 2 ^ 32) :
    ∃ π : Equiv.Perm Nat, (∀ o ∈ κ.objects, π (o.1 % 2 ^ 32) = o.2 % 2 ^ 32) ∧
      ∀ x, ¬ IsProper x → π x = x := by
  have behind := h.behind
  obtain ⟨π, hits, fixes⟩ := exists_perm IsProper κ.objects
    (fun o ho => by
      have bounds := h.objects o ho
      unfold IsProper
      omega)
    fun o ho u hu => ⟨fun same => by rw [List.inj_on_of_nodup_map h.objects_left ho hu same],
      fun same => by rw [List.inj_on_of_nodup_map h.objects_right ho hu same]⟩
  refine ⟨π, fun o ho => ?_, fixes⟩
  have bounds := h.objects o ho
  rw [Nat.mod_eq_of_lt (by omega), Nat.mod_eq_of_lt (by omega)]
  exact hits o ho

theorem Tidy.exists_tag (h : Tidy S κ c c' n n') (few : c.registry.types.length < 2 ^ 32) :
    ∃ π : Equiv.Perm Nat, (∀ i ∈ κ.types, π (i.1 % 2 ^ 32) = i.2 % 2 ^ 32) ∧
      ∀ x, ¬ IsProper x → π x = x := by
  have length := h.types_length_le
  have proper : ∀ i ∈ κ.types, IsProper i.1 ∧ IsProper i.2 := fun i hi => by
    obtain ⟨ty, left, right⟩ := h.types i hi
    have low := Registry.number?_bounds left
    have high := Registry.number?_bounds right
    unfold IsProper
    omega
  obtain ⟨π, hits, fixes⟩ := exists_perm IsProper κ.types proper fun i hi j hj => by
    obtain ⟨ty, left, right⟩ := h.types i hi
    obtain ⟨ty', left', right'⟩ := h.types j hj
    constructor
    · intro same
      rw [same] at left
      cases Registry.number?_injective left left'
      exact Option.some.inj (right.symm.trans right')
    · intro same
      rw [same] at right
      cases Registry.number?_injective right right'
      exact Option.some.inj (left.symm.trans left')
  refine ⟨π, fun i hi => ?_, fixes⟩
  obtain ⟨left, right⟩ := proper i hi
  rw [Nat.mod_eq_of_lt left.2, Nat.mod_eq_of_lt right.2]
  exact hits i hi

/-- A valuation of the left run carries over to one of the right run that respects all links, as long
as no counter has overflown. -/
theorem Tidy.exists_bridge (h : Tidy S κ c c' n n') (hρ : ρ.WellSorted) (small : n ≤ 2 ^ 32)
    (few : c.registry.types.length < 2 ^ 32) :
    ∃ E : Bridge, E.left = ρ ∧ E.Respects κ ∧
      (∀ fd, S.fields fd → E.CarriesConst (.array fd.ty.role)
        ((Chunk.ofField fd).id, (Chunk.ofField fd).sort)
        ((Chunk.ofField fd).id, (Chunk.ofField fd).sort)) ∧
      E.CarriesConst (.array .tag) (Registry.arrayName, .array Address.sort (.bitVec 32))
        (Registry.arrayName, .array Address.sort (.bitVec 32)) := by
  obtain ⟨π, objects, fixes⟩ := h.exists_address small
  obtain ⟨τ, types, fixes'⟩ := h.exists_tag few
  have given : ∀ {name s v}, CarriedOver S κ ρ π τ name s v →
      Valuation.having (CarriedOver S κ ρ π τ) name s = some v := fun hv =>
    Valuation.having_eq (P := CarriedOver S κ ρ π τ) h.carriedOver_unique hv
  let E : Bridge := {
    left := ρ
    right := .having (CarriedOver S κ ρ π τ)
    address := π
    tag := τ
    left_sorted := hρ
    right_sorted := Valuation.having_wellSorted fun _ _ _ hv =>
      h.carriedOver_hasSort hρ (perm_lt fixes) (perm_lt fixes') hv
    address_null := fixes 0 fun proper => Nat.not_succ_le_zero 0 proper.1 }
  refine ⟨E, rfl, ⟨fun k hk => ?_, objects, types⟩, fun fd hf => ?_, ?_⟩
  · have sound := h.sound k hk
    obtain ⟨v, value, sort⟩ := Term.denote_hasSort hρ sound.sorted
    exact ⟨v, _, value, given (.linked hk value),
      E.carries_carry sound.suits (sound.sort ▸ sort)⟩
  · obtain ⟨v, value, sort⟩ := hρ (Chunk.ofField fd).id (Chunk.ofField fd).sort fd.ty.sort_valued
    exact ⟨v, _, value, given (.field hf value),
      E.carries_carry (s := (Chunk.ofField fd).sort) ⟨rfl, fd.ty.role_suits⟩ sort⟩
  · obtain ⟨v, value, sort⟩ := hρ Registry.arrayName (.array Address.sort (.bitVec 32)) rfl
    exact ⟨v, _, value, given (.tags value),
      E.carries_carry (s := .array Address.sort (.bitVec 32)) ⟨rfl, rfl⟩ sort⟩

end Bridging
end SinkReach
