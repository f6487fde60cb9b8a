import SinkReach.Proofs.Term.Reflexivity

/-!
When sameness of arrays is equality of their elements. Two arrays are compared by their defaults, by how
many updates they have, and by the updates of the first; that says what every index reads only of arrays
that are *reduced*, which update pairwise different indices and none to its default. Among these sameness is
an equivalence, at every depth; of others it need not even be symmetric.
-/
namespace SinkReach

/-- Things that are matched to members of a list, no two to a common one, are no more than the list has, and
if they are as many, every member is matched. -/
theorem length_le_of_matched {α β : Type} {R : α → β → Prop} {ks : List α} {ls : List β}
    (apart : ks.Pairwise fun k k' => ∀ l ∈ ls, R k l → ¬ R k' l) (matched : ∀ k ∈ ks, ∃ l ∈ ls, R k l) :
    ks.length ≤ ls.length ∧ (ks.length = ls.length → ∀ l ∈ ls, ∃ k ∈ ks, R k l) := by
  induction ks generalizing ls with
  | nil => exact ⟨Nat.zero_le _, fun none l hl => by simp [List.length_eq_zero_iff.1 none.symm] at hl⟩
  | cons k ks ih =>
    obtain ⟨first, rest⟩ := List.pairwise_cons.1 apart
    obtain ⟨⟨l, hl, hit⟩, others⟩ := List.forall_mem_cons.1 matched
    obtain ⟨before, behind, rfl⟩ := List.append_of_mem hl
    -- The other things are matched to what is left of the list without `l`.
    have left : before ++ behind ⊆ before ++ l :: behind := by
      intro m hm
      rcases List.mem_append.1 hm with hm | hm
      · exact List.mem_append_left _ hm
      · exact List.mem_append_right _ (List.mem_cons_of_mem _ hm)
    have matched' : ∀ k' ∈ ks, ∃ m ∈ before ++ behind, R k' m := by
      intro k' hk'
      obtain ⟨m, hm, hit'⟩ := others k' hk'
      rw [List.mem_append, List.mem_cons] at hm
      rcases hm with hm | rfl | hm
      · exact ⟨m, List.mem_append_left _ hm, hit'⟩
      · exact absurd hit' (first k' hk' m hl hit)
      · exact ⟨m, List.mem_append_right _ hm, hit'⟩
    have apart' : ks.Pairwise fun k k' => ∀ m ∈ before ++ behind, R k m → ¬ R k' m :=
      rest.imp fun h m hm => h m (left hm)
    obtain ⟨bound, all⟩ := ih apart' matched'
    rw [List.length_append] at bound all
    simp only [List.length_cons, List.length_append]
    refine ⟨by omega, fun equal m hm => ?_⟩
    rw [List.mem_append, List.mem_cons] at hm
    have covered : ∀ m ∈ before ++ behind, ∃ k' ∈ k :: ks, R k' m := fun m hm => by
      obtain ⟨k', hk', hit'⟩ := all (by omega) m hm
      exact ⟨k', List.mem_cons_of_mem _ hk', hit'⟩
    rcases hm with hm | rfl | hm
    · exact covered m (List.mem_append_left _ hm)
    · exact ⟨k, List.mem_cons_self, hit⟩
    · exact covered m (List.mem_append_right _ hm)

namespace ArrayValue

theorem find_congr_entries {test test' : Value → Bool} : {a : ArrayValue} →
    (∀ x ∈ a.entries, test x.1 = test' x.1) → a.find test = a.find test'
  | .const _, _ => rfl
  | .store a k v, h => by
    rw [entries, List.forall_mem_append] at h
    rw [find, find, find_congr_entries h.1, h.2 (k, v) List.mem_cons_self]

theorem size_eq : (a : ArrayValue) → a.size = a.entries.length
  | .const _ => rfl
  | .store a _ _ => by rw [size, entries, List.length_append, size_eq a, List.length_singleton]

/-- An index reads an update of it, or else the default. -/
theorem get_cases (k : Value) : (a : ArrayValue) →
    (∃ x ∈ a.entries, x.1.same k = true ∧ a.get k = x.2) ∨ (a.lacks k = true ∧ a.get k = a.default)
  | .const d => .inr ⟨rfl, rfl⟩
  | .store a key v => by
    rw [get, find, entries, default]
    cases hit : key.same k with
    | true => exact .inl ⟨(key, v), List.mem_append_right _ List.mem_cons_self, hit, rfl⟩
    | false =>
      refine (get_cases k a).imp ?_ ?_
      · rintro ⟨x, hx, same, read⟩
        exact ⟨x, List.mem_append_left _ hx, same, read⟩
      · rintro ⟨lacks, read⟩
        refine ⟨?_, read⟩
        rw [ArrayValue.lacks, entries, List.all_append, List.all_eq_true.2 (List.all_eq_true.1 lacks)]
        simp [hit]

theorem get_of_lacks {a : ArrayValue} {k : Value} (h : a.lacks k = true) : a.get k = a.default := by
  rcases a.get_cases k with ⟨x, hx, hit, -⟩ | ⟨-, read⟩
  · have miss := List.all_eq_true.1 h x hx
    simp [hit] at miss
  · exact read

theorem default_or_entry_find (test : Value → Bool) : (a : ArrayValue) →
    a.find test = a.default ∨ ∃ x ∈ a.entries, a.find test = x.2
  | .const _ => .inl rfl
  | .store a k v => by
    rw [find, entries, default]
    split
    · exact .inr ⟨(k, v), List.mem_append_right _ List.mem_cons_self, rfl⟩
    · refine (default_or_entry_find test a).imp_right ?_
      rintro ⟨x, hx, read⟩
      exact ⟨x, List.mem_append_left _ hx, read⟩

end ArrayValue

namespace Value

/-- Comparing from the other side comes to the same. -/
def Mirrors (v : Value) : Prop := ∀ w : Value, v.sameAs w = w.same v ∧ w.sameAs v = v.same w

theorem mirrors_of_isScalar {v : Value} (h : v.isScalar = true) : v.Mirrors := by
  intro w
  cases v <;> cases w <;> simp_all [sameAs, same, isScalar]

/-- Arrays are compared alike from both sides if their parts are. -/
theorem mirrors_array {a : ArrayValue} (default : a.default.Mirrors)
    (parts : ∀ x ∈ a.entries, x.1.Mirrors ∧ x.2.Mirrors) : (array a).Mirrors := by
  intro w
  cases w with
  | bool | bitVec | float => simp [sameAs, same]
  | array b =>
    have found : ∀ test, (a.find test).Mirrors := by
      intro test
      rcases a.default_or_entry_find test with read | ⟨x, hx, read⟩
      · exact read ▸ default
      · exact read ▸ (parts x hx).2
    simp only [sameAs, same, ArrayValue.defaultSameAs_eq, ArrayValue.sameDefault_eq]
    constructor
    · rw [(default b.default).1]
      congr 1
      rw [Bool.eq_iff_iff, ArrayValue.within_iff, List.all_eq_true]
      refine forall₂_congr fun x hx => ?_
      have read : a.find x.1.sameAs = a.get x.1 :=
        ArrayValue.find_congr_entries fun y hy => ((parts y hy).1 x.1).2
      rw [ArrayValue.holds_eq, read, ArrayValue.get, (found _ x.2).2]
    · rw [(default b.default).2]
      congr 1
      rw [Bool.eq_iff_iff, ArrayValue.within_iff, List.all_eq_true]
      refine forall₂_congr fun x hx => ?_
      have read : b.find x.1.sameAs = b.get x.1 :=
        ArrayValue.find_congr_entries fun y _ => ((parts x hx).1 y.1).1
      rw [ArrayValue.holds_eq, read, ((parts x hx).2 _).1]

end Value

mutual

theorem Value.mirrors : (v : Value) → v.Mirrors
  | .bool _ | .bitVec _ _ | .float _ _ => Value.mirrors_of_isScalar rfl
  | .array a => Value.mirrors_array a.mirrors_default a.mirrors_entries

theorem ArrayValue.mirrors_default (a : ArrayValue) : a.default.Mirrors := by
  cases a with
  | const d => exact d.mirrors
  | store a _ _ => exact a.mirrors_default

theorem ArrayValue.mirrors_entries (a : ArrayValue) : ∀ x ∈ a.entries, x.1.Mirrors ∧ x.2.Mirrors := by
  cases a with
  | const _ => exact nofun
  | store a k v =>
    exact List.forall_mem_append.2
      ⟨a.mirrors_entries, List.forall_mem_singleton.2 ⟨k.mirrors, v.mirrors⟩⟩

end

/-- What is compared of two arrays: the defaults, the number of updates, and what the second reads where the
first is updated. -/
theorem Value.same_array_iff {a b : ArrayValue} : (array a).same (array b) = true ↔
    a.default.same b.default = true ∧ a.entries.length = b.entries.length ∧
      ∀ x ∈ a.entries, (b.get x.1).same x.2 = true := by
  have read : ∀ x : Value × Value, x.2.sameAs (b.find x.1.sameAs) = (b.get x.1).same x.2 := by
    intro x
    have test : x.1.sameAs = fun key => key.same x.1 := funext fun key => (x.1.mirrors key).1
    rw [(x.2.mirrors _).1, test]
    rfl
  simp only [same, ArrayValue.sameDefault_eq, ArrayValue.within_iff, ArrayValue.size_eq, Bool.and_eq_true,
    beq_iff_eq, and_assoc, read]

/-- Sameness is an equivalence among the values with a property. -/
structure Value.Equates (P : Value → Prop) : Prop where
  refl : ∀ {u}, P u → u.same u = true
  symm : ∀ {u v}, P u → P v → u.same v = true → v.same u = true
  trans : ∀ {u v w}, P u → P v → P w → u.same v = true → v.same w = true → u.same w = true

/-- An array whose indices and elements have given properties, which updates pairwise different indices and
none of them to its default. -/
structure ArrayValue.Reduced (P Q : Value → Prop) (a : ArrayValue) : Prop where
  keys : ∀ x ∈ a.entries, P x.1
  elements : ∀ x ∈ a.entries, Q x.2
  default : Q a.default
  apart : a.entries.Pairwise fun x y => x.1.same y.1 = false
  effective : ∀ x ∈ a.entries, x.2.same a.default = false

namespace ArrayValue.Reduced

open Value

variable {P Q : Value → Prop} {a b c : ArrayValue} {k k' : Value}

theorem get_property (ha : a.Reduced P Q) (k : Value) : Q (a.get k) := by
  rcases a.get_cases k with ⟨x, hx, -, read⟩ | ⟨-, read⟩
  · exact read ▸ ha.elements x hx
  · exact read ▸ ha.default

section
variable (keys : Equates P)
include keys

theorem eq_of_same (ha : a.Reduced P Q) {x y : Value × Value} (hx : x ∈ a.entries) (hy : y ∈ a.entries)
    (same : x.1.same y.1 = true) : x = y := by
  obtain ⟨i, hi, rfl⟩ := List.getElem_of_mem hx
  obtain ⟨j, hj, rfl⟩ := List.getElem_of_mem hy
  rcases Nat.lt_trichotomy i j with less | rfl | greater
  · cases (List.pairwise_iff_getElem.1 ha.apart i j hi hj less).symm.trans same
  · rfl
  · have back := keys.symm (ha.keys _ hx) (ha.keys _ hy) same
    cases (List.pairwise_iff_getElem.1 ha.apart j i hj hi greater).symm.trans back

/-- An updated index reads its update. -/
theorem get_of_hit (ha : a.Reduced P Q) (hk : P k) {x : Value × Value} (hx : x ∈ a.entries)
    (hit : x.1.same k = true) : a.get k = x.2 := by
  rcases a.get_cases k with ⟨y, hy, hit', read⟩ | ⟨lacks, -⟩
  · have same := keys.trans (ha.keys y hy) hk (ha.keys x hx) hit' (keys.symm (ha.keys x hx) hk hit)
    rw [read, ha.eq_of_same keys hy hx same]
  · have miss := List.all_eq_true.1 lacks x hx
    simp [hit] at miss

theorem get_of_mem (ha : a.Reduced P Q) {x : Value × Value} (hx : x ∈ a.entries) : a.get x.1 = x.2 :=
  ha.get_of_hit keys (ha.keys x hx) hx (keys.refl (ha.keys x hx))

end

variable (keys : Equates P) (elements : Equates Q)
include elements

/-- Where two arrays of one default read the same at the updates of the first, each of these updates meets
one of the second. -/
theorem matched (ha : a.Reduced P Q) (hb : b.Reduced P Q) (default : a.default.same b.default = true)
    (reads : ∀ x ∈ a.entries, (b.get x.1).same x.2 = true) :
    ∀ x ∈ a.entries, ∃ y ∈ b.entries, y.1.same x.1 = true := by
  intro x hx
  rcases b.get_cases x.1 with ⟨y, hy, hit, -⟩ | ⟨-, read⟩
  · exact ⟨y, hy, hit⟩
  · have same := reads x hx
    rw [read] at same
    have idle := elements.trans ha.default hb.default (ha.elements x hx) default same
    have idle := elements.symm ha.default (ha.elements x hx) idle
    cases (ha.effective x hx).symm.trans idle

include keys

theorem length_le (ha : a.Reduced P Q) (hb : b.Reduced P Q) (default : a.default.same b.default = true)
    (reads : ∀ x ∈ a.entries, (b.get x.1).same x.2 = true) :
    a.entries.length ≤ b.entries.length ∧ (a.entries.length = b.entries.length →
      ∀ y ∈ b.entries, ∃ x ∈ a.entries, y.1.same x.1 = true) := by
  refine length_le_of_matched ?_ (ha.matched elements hb default reads)
  refine List.pairwise_iff_forall_sublist.2 fun {u v} sub y hy hit hit' => ?_
  have hu := ha.keys u (sub.subset (by simp))
  have hv := ha.keys v (sub.subset (by simp))
  have same := keys.trans hu (hb.keys y hy) hv (keys.symm (hb.keys y hy) hu hit) hit'
  cases (List.pairwise_iff_forall_sublist.1 ha.apart sub).symm.trans same

/-- Reduced arrays are the same exactly if their defaults are and every index reads the same in both. -/
theorem same_iff (ha : a.Reduced P Q) (hb : b.Reduced P Q) : (array a).same (array b) = true ↔
    a.default.same b.default = true ∧ ∀ k, P k → (a.get k).same (b.get k) = true := by
  rw [same_array_iff]
  refine and_congr_right fun default => ⟨?_, fun reads => ?_⟩
  · rintro ⟨length, reads⟩ k hk
    have covered := (ha.length_le keys elements hb default reads).2 length
    rcases a.get_cases k with ⟨x, hx, hit, read⟩ | ⟨lacks, read⟩
    · have found : b.get k = b.get x.1 := by
        rcases b.get_cases x.1 with ⟨y, hy, hit', read'⟩ | ⟨lacks', read'⟩
        · rw [read', hb.get_of_hit keys hk hy]
          exact keys.trans (hb.keys y hy) (ha.keys x hx) hk hit' hit
        · rcases b.get_cases k with ⟨y, hy, hit', -⟩ | ⟨-, read''⟩
          · have back := keys.symm (ha.keys x hx) hk hit
            have met := keys.trans (hb.keys y hy) hk (ha.keys x hx) hit' back
            have miss := List.all_eq_true.1 lacks' y hy
            simp [met] at miss
          · rw [read', read'']
      rw [read, found]
      exact elements.symm (hb.get_property x.1) (ha.elements x hx) (reads x hx)
    · rcases b.get_cases k with ⟨y, hy, hit, -⟩ | ⟨-, read'⟩
      · obtain ⟨x, hx, met⟩ := covered y hy
        have back := keys.symm (hb.keys y hy) (ha.keys x hx) met
        have met' := keys.trans (ha.keys x hx) (hb.keys y hy) hk back hit
        have miss := List.all_eq_true.1 lacks x hx
        simp [met'] at miss
      · rw [read, read']
        exact default
  · have forth : ∀ x ∈ a.entries, (b.get x.1).same x.2 = true := fun x hx => by
      have same := reads x.1 (ha.keys x hx)
      rw [ha.get_of_mem keys hx] at same
      exact elements.symm (ha.elements x hx) (hb.get_property x.1) same
    have back : ∀ y ∈ b.entries, (a.get y.1).same y.2 = true := fun y hy => by
      have same := reads y.1 (hb.keys y hy)
      rwa [hb.get_of_mem keys hy] at same
    have default' := elements.symm ha.default hb.default default
    exact ⟨Nat.le_antisymm (ha.length_le keys elements hb default forth).1
      (hb.length_le keys elements ha default' back).1, forth⟩

theorem equates : Equates fun v => ∃ a : ArrayValue, v = array a ∧ a.Reduced P Q where
  refl := by
    rintro _ ⟨a, rfl, ha⟩
    exact (ha.same_iff keys elements ha).2
      ⟨elements.refl ha.default, fun k _ => elements.refl (ha.get_property k)⟩
  symm := by
    rintro _ _ ⟨a, rfl, ha⟩ ⟨b, rfl, hb⟩ same
    obtain ⟨default, reads⟩ := (ha.same_iff keys elements hb).1 same
    exact (hb.same_iff keys elements ha).2 ⟨elements.symm ha.default hb.default default,
      fun k hk => elements.symm (ha.get_property k) (hb.get_property k) (reads k hk)⟩
  trans := by
    rintro _ _ _ ⟨a, rfl, ha⟩ ⟨b, rfl, hb⟩ ⟨c, rfl, hc⟩ same same'
    obtain ⟨default, reads⟩ := (ha.same_iff keys elements hb).1 same
    obtain ⟨default', reads'⟩ := (hb.same_iff keys elements hc).1 same'
    exact (ha.same_iff keys elements hc).2
      ⟨elements.trans ha.default hb.default hc.default default default',
        fun k hk => elements.trans (ha.get_property k) (hb.get_property k) (hc.get_property k)
          (reads k hk) (reads' k hk)⟩

end ArrayValue.Reduced

mutual

/-- Whether every array in the value updates pairwise different indices, and none of them to its default. -/
def Value.isReduced : Value → Bool
  | .array a => a.isReduced
  | _ => true

def ArrayValue.isReduced : ArrayValue → Bool
  | .const d => d.isReduced
  | .store a k v => a.isReduced && a.lacks k && k.isReduced && v.isReduced && !v.same a.default

end

namespace Value

/-- The reduced values of a sort. -/
def ReducedOf (s : TermSort) (v : Value) : Prop := v.hasSort s = true ∧ v.isReduced = true

theorem isReduced_of_isScalar {v : Value} (h : v.isScalar = true) : v.isReduced = true := by
  cases v with
  | bool | bitVec | float => rfl
  | array a => cases h

theorem reducedOf_of_scalar {s : TermSort} (scalar : s.isArray = false) {v : Value}
    (h : v.hasSort s = true) : v.ReducedOf s :=
  ⟨h, isReduced_of_isScalar (Term.isScalar_of_hasSort h scalar)⟩

theorem Equates.mono {P Q : Value → Prop} (h : Equates Q) (sub : ∀ v, P v → Q v) : Equates P where
  refl hu := h.refl (sub _ hu)
  symm hu hv := h.symm (sub _ hu) (sub _ hv)
  trans hu hv hw := h.trans (sub _ hu) (sub _ hv) (sub _ hw)

theorem equates_scalars : Equates fun v => v.isScalar = true where
  refl := same_self_of_isScalar
  symm hu _ same := (same_comm hu).symm.trans same
  trans hu _ hw same same' :=
    (same_iff_alike (.inl hu)).2 (((same_iff_alike (.inl hu)).1 same).trans
      ((same_iff_alike (.inr hw)).1 same'))

end Value

namespace ArrayValue

theorem reduced_of_isReduced {i e : TermSort} : {a : ArrayValue} → a.hasSorts i e = true →
    a.isReduced = true → a.Reduced (Value.ReducedOf i) (Value.ReducedOf e)
  | .const d, sorts, reduced => by
    simp only [hasSorts] at sorts
    simp only [isReduced] at reduced
    exact ⟨fun _ h => (nomatch h), fun _ h => (nomatch h), ⟨sorts, reduced⟩, .nil, fun _ h => nomatch h⟩
  | .store a k v, sorts, reduced => by
    simp only [hasSorts, Bool.and_eq_true] at sorts
    simp only [isReduced, Bool.and_eq_true, Bool.not_eq_true'] at reduced
    obtain ⟨⟨⟨⟨ra, fresh⟩, rk⟩, rv⟩, other⟩ := reduced
    have base := reduced_of_isReduced sorts.1.1 ra
    exact {
      keys := List.forall_mem_append.2 ⟨base.keys, List.forall_mem_singleton.2 ⟨sorts.1.2, rk⟩⟩
      elements := List.forall_mem_append.2 ⟨base.elements, List.forall_mem_singleton.2 ⟨sorts.2, rv⟩⟩
      default := base.default
      apart := List.pairwise_append.2 ⟨base.apart, List.pairwise_singleton .., fun x hx y hy => by
        rw [List.mem_singleton.1 hy]
        simpa using List.all_eq_true.1 fresh x hx⟩
      effective := List.forall_mem_append.2 ⟨base.effective, List.forall_mem_singleton.2 other⟩ }

end ArrayValue

/-- Sameness is an equivalence among the reduced values of every sort. -/
theorem Value.equates_reduced (s : TermSort) : Equates (ReducedOf s) := by
  induction s with
  | bool | bitVec | float => exact equates_scalars.mono fun v h => Term.isScalar_of_hasSort h.1 rfl
  | array i e keys elements =>
    refine (ArrayValue.Reduced.equates keys elements).mono fun v h => ?_
    obtain ⟨a, rfl, sorts⟩ := array_of_hasSort h.1
    exact ⟨a, rfl, ArrayValue.reduced_of_isReduced sorts h.2⟩

namespace ArrayValue

theorem default_remove (test : Value → Bool) : (a : ArrayValue) → (a.remove test).default = a.default
  | .const _ => rfl
  | .store a k v => by
    rw [remove]
    split
    · exact default_remove test a
    · exact default_remove test a

theorem entries_set (a : ArrayValue) (k v : Value) :
    (a.set k v).entries = (a.entries.filter fun x => !x.1.same k) ++ [(k, v)] := by
  rw [set, entries, entries_remove]

theorem default_set (a : ArrayValue) (k v : Value) : (a.set k v).default = a.default :=
  default_remove _ a

/-- An array whose index is updated once more is longer, so it is not the same. -/
theorem not_same_set {a : ArrayValue} {k : Value} (fresh : a.lacks k = true) (v : Value) :
    (Value.array (a.set k v)).same (.array a) = false := by
  refine Bool.eq_false_iff.2 fun same => ?_
  have length := (Value.same_array_iff.1 same).2.1
  rw [entries_set, List.filter_eq_self.2 (List.all_eq_true.1 fresh)] at length
  simp at length

namespace Reduced

open Value

variable {P Q : Value → Prop} {a : ArrayValue} {k : Value}

/-- Storing back what an updated index reads leaves the array reduced and the same. -/
theorem same_set_get (keys : Equates P) (elements : Equates Q) (ha : a.Reduced P Q) (hk : P k)
    (scalar : k.isScalar = true) (updated : a.lacks k = false) :
    (array (a.set k (a.get k))).same (array a) = true := by
  obtain ⟨x, hx, hit⟩ : ∃ x ∈ a.entries, x.1.same k = true := by simpa [lacks] using updated
  have read : a.get k = x.2 := ha.get_of_hit keys hk hx hit
  have kept : ∀ y ∈ a.entries.filter fun x => !x.1.same k, y ∈ a.entries ∧ y.1.same k = false :=
    fun y hy => by simpa using hy
  have stored : (a.set k (a.get k)).Reduced P Q := {
    keys := by
      rw [entries_set]
      exact List.forall_mem_append.2 ⟨fun y hy => ha.keys y (kept y hy).1, List.forall_mem_singleton.2 hk⟩
    elements := by
      rw [entries_set]
      exact List.forall_mem_append.2 ⟨fun y hy => ha.elements y (kept y hy).1,
        List.forall_mem_singleton.2 (ha.get_property k)⟩
    default := (default_set a k _).symm ▸ ha.default
    apart := by
      rw [entries_set]
      refine List.pairwise_append.2 ⟨ha.apart.filter _, List.pairwise_singleton .., fun y hy z hz => ?_⟩
      rw [List.mem_singleton.1 hz]
      exact (kept y hy).2
    effective := by
      rw [entries_set, default_set]
      refine List.forall_mem_append.2 ⟨fun y hy => ha.effective y (kept y hy).1, ?_⟩
      exact List.forall_mem_singleton.2 (read ▸ ha.effective x hx) }
  refine (stored.same_iff keys elements ha).2 ⟨?_, fun k' hk' => ?_⟩
  · rw [default_set]
    exact elements.refl ha.default
  · rw [get_set scalar]
    split
    next same =>
      rw [read, ha.get_of_hit keys hk' hx (keys.trans (ha.keys x hx) hk hk' hit same)]
      exact elements.refl (ha.elements x hx)
    next => exact elements.refl (ha.get_property k')

end Reduced

/-- Reduced arrays over an index sort of numbers, truth values or floats are the same exactly if their
defaults are and every index reads the same in both; where some index is updated in neither, the defaults
follow. Sameness of such arrays is symmetric and transitive, and storing back the element that an index
reads leaves the array the same as before exactly if the index has been updated before. -/
theorem same_iff_get {i e : TermSort} (scalar : i.isArray = false) {a b c : ArrayValue}
    (sorts : a.hasSorts i e = true ∧ b.hasSorts i e = true ∧ c.hasSorts i e = true)
    (reduced : a.isReduced = true ∧ b.isReduced = true ∧ c.isReduced = true) :
    ((Value.array a).same (.array b) = true ↔ a.default.same b.default = true ∧
        ∀ k : Value, k.hasSort i = true → (a.get k).same (b.get k) = true) ∧
      ((∃ k : Value, k.hasSort i = true ∧ a.lacks k = true ∧ b.lacks k = true) →
        ((Value.array a).same (.array b) = true ↔
          ∀ k : Value, k.hasSort i = true → (a.get k).same (b.get k) = true)) ∧
      (Value.array a).same (.array b) = (Value.array b).same (.array a) ∧
      ((Value.array a).same (.array b) = true → (Value.array b).same (.array c) = true →
        (Value.array a).same (.array c) = true) ∧
      ∀ k : Value, k.hasSort i = true →
        ((Value.array (a.set k (a.get k))).same (.array a) = true ↔ a.lacks k = false) := by
  have keys := Value.equates_reduced i
  have elements := Value.equates_reduced e
  have ra := reduced_of_isReduced sorts.1 reduced.1
  have rb := reduced_of_isReduced sorts.2.1 reduced.2.1
  have rc := reduced_of_isReduced sorts.2.2 reduced.2.2
  have reads : (Value.array a).same (.array b) = true ↔ a.default.same b.default = true ∧
      ∀ k : Value, k.hasSort i = true → (a.get k).same (b.get k) = true := by
    rw [ra.same_iff keys elements rb]
    refine and_congr_right fun _ => forall_congr' fun k => ?_
    exact ⟨fun h hk => h (Value.reducedOf_of_scalar scalar hk), fun h hk => h hk.1⟩
  have arrays := Reduced.equates keys elements
  refine ⟨reads, ?_, ?_, arrays.trans ⟨a, rfl, ra⟩ ⟨b, rfl, rb⟩ ⟨c, rfl, rc⟩, fun k hk => ?_⟩
  · rintro ⟨k, hk, missA, missB⟩
    refine reads.trans (and_iff_right_of_imp fun all => ?_)
    have same := all k hk
    rwa [get_of_lacks missA, get_of_lacks missB] at same
  · rw [Bool.eq_iff_iff]
    exact ⟨arrays.symm ⟨a, rfl, ra⟩ ⟨b, rfl, rb⟩, arrays.symm ⟨b, rfl, rb⟩ ⟨a, rfl, ra⟩⟩
  · constructor
    · intro same
      refine Bool.eq_false_iff.2 fun fresh => ?_
      cases (not_same_set fresh _).symm.trans same
    · exact ra.same_set_get keys elements (Value.reducedOf_of_scalar scalar hk)
        (Term.isScalar_of_hasSort hk scalar)

/-- An array of bytes from two updates. -/
def twoBytes (index element index' element' : Nat) : ArrayValue :=
  .store (.store (.const (.bitVec 0 8)) (.bitVec index 8) (.bitVec element 8)) (.bitVec index' 8)
    (.bitVec element' 8)

theorem same_iff_get_swapped :
    let a := twoBytes 1 7 2 9
    let b := twoBytes 2 9 1 7
    (a.hasSorts (.bitVec 8) (.bitVec 8) = true ∧ b.hasSorts (.bitVec 8) (.bitVec 8) = true) ∧
      (a.isReduced = true ∧ b.isReduced = true) ∧
      (∀ k : Value, k.hasSort (.bitVec 8) = true → (a.get k).same (b.get k) = true) ∧
      (Value.array (a.set (.bitVec 2 8) (.bitVec 9 8))).same (.array a) = true := by
  intro a b
  have sorts : a.hasSorts (.bitVec 8) (.bitVec 8) = true ∧ b.hasSorts (.bitVec 8) (.bitVec 8) = true :=
    ⟨by decide, by decide⟩
  have reduced : a.isReduced = true ∧ b.isReduced = true := ⟨by cbv, by cbv⟩
  have same : (Value.array a).same (.array b) = true := by cbv
  have updated : a.lacks (.bitVec 2 8) = false := by cbv
  have read : a.get (.bitVec 2 8) = .bitVec 9 8 := by cbv
  have result := same_iff_get (i := .bitVec 8) (e := .bitVec 8) rfl (a := a) (b := b) (c := b)
    ⟨sorts.1, sorts.2, sorts.2⟩ ⟨reduced.1, reduced.2, reduced.2⟩
  obtain ⟨reads, -, -, -, stored⟩ := result
  exact ⟨sorts, reduced, (reads.1 same).2, read ▸ (stored (.bitVec 2 8) (by decide)).2 updated⟩

/-- A word array that is zero everywhere, once with an update to zero and once without, and one that is not. -/
theorem same_not_extensional :
    let zero : ArrayValue := .const (.bitVec 0 32)
    let zero' : ArrayValue := .store zero (.bitVec 1 32) (.bitVec 0 32)
    let five : ArrayValue := .store zero (.bitVec 2 32) (.bitVec 5 32)
    (zero.hasSorts (.bitVec 32) (.bitVec 32) = true ∧ zero'.hasSorts (.bitVec 32) (.bitVec 32) = true ∧
        five.hasSorts (.bitVec 32) (.bitVec 32) = true) ∧
      (zero.distinctKeys = true ∧ zero'.distinctKeys = true ∧ five.distinctKeys = true) ∧
      ((∀ k, (zero'.get k).same (zero.get k) = true) ∧ (Value.array zero').same (.array zero) = false) ∧
      (Value.array zero').same (.array five) = true ∧
      (zero'.get (.bitVec 2 32)).same (five.get (.bitVec 2 32)) = false ∧
      (Value.array five).same (.array zero') = false := by
  intro zero zero' five
  refine ⟨by decide, by cbv, ⟨fun k => ?_, by cbv⟩, by cbv, by cbv, by cbv⟩
  have read : zero'.get k = .bitVec 0 32 := by
    rcases zero'.get_cases k with ⟨x, hx, -, read⟩ | ⟨-, read⟩
    · cases List.mem_singleton.1 hx
      exact read
    · exact read
  rw [read]
  exact Value.same_self_of_isScalar rfl

end ArrayValue
end SinkReach
