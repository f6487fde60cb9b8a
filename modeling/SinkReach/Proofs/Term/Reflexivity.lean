import SinkReach.Proofs.Term.Folding

/-!
Sameness is reflexive on the values that evaluation produces. An array counts its updates, so it is the
same as itself only if it updates no index twice; writing an element keeps that, because it drops the
older updates of the index.
-/
namespace SinkReach

/-- Whether arrays are indexed by values that are no arrays, at every depth. -/
def TermSort.scalarIndexed : TermSort → Bool
  | array i e => !i.isArray && e.scalarIndexed
  | bool | bitVec _ | float _ => true

/-- No update is of an index that is the same. -/
def ArrayValue.lacks (a : ArrayValue) (k : Value) : Bool := a.entries.all fun x => !x.1.same k

mutual

/-- Whether every array in the value updates pairwise different indices. -/
def Value.distinctKeys : Value → Bool
  | .array a => a.distinctKeys
  | _ => true

def ArrayValue.distinctKeys : ArrayValue → Bool
  | .const d => d.distinctKeys
  | .store a k v => a.distinctKeys && a.lacks k && v.distinctKeys

end

namespace Value

theorem distinctKeys_of_isScalar {v : Value} (h : v.isScalar = true) : v.distinctKeys = true := by
  cases v with
  | bool | bitVec | float => rfl
  | array a => cases h

theorem same_self_of_isScalar {v : Value} (h : v.isScalar = true) : v.same v = true :=
  (same_iff_alike (.inl h)).2 (.of_isScalar h)

theorem sameAs_eq_same {k key : Value} (h : k.isScalar = true) : k.sameAs key = key.same k := by
  cases k <;> cases key <;> simp_all [sameAs, same, isScalar]

theorem same_comm {k key : Value} (h : k.isScalar = true) : k.same key = key.same k := by
  rw [Bool.eq_iff_iff, same_iff_alike (.inl h), same_iff_alike (.inr h)]
  exact ⟨Alike.symm, Alike.symm⟩

end Value

namespace ArrayValue

theorem sameDefault_eq (v : Value) : (a : ArrayValue) → a.sameDefault v = a.default.same v
  | .const d => by rw [sameDefault, default]
  | .store a _ _ => by rw [sameDefault, default, sameDefault_eq v a]

theorem defaultSameAs_eq (v : Value) : (a : ArrayValue) → a.defaultSameAs v = a.default.sameAs v
  | .const d => by rw [defaultSameAs, default]
  | .store a _ _ => by rw [defaultSameAs, default, defaultSameAs_eq v a]

theorem holds_eq (k v : Value) : (a : ArrayValue) → a.holds k v = (a.get k).same v
  | .const d => by rw [holds, get, find]
  | .store a key element => by
    rw [holds, holds_eq k v a, get, get, find]
    split <;> rfl

theorem within_iff {b : ArrayValue} : {a : ArrayValue} →
    (a.within b = true ↔ ∀ x ∈ a.entries, x.2.sameAs (b.find x.1.sameAs) = true)
  | .const d => by simp [within, entries]
  | .store a k v => by
    rw [within, Bool.and_eq_true, within_iff, entries]
    simp [or_imp, forall_and]

theorem key_hasSort {i e : TermSort} : {a : ArrayValue} → a.hasSorts i e = true →
    ∀ x ∈ a.entries, x.1.hasSort i = true
  | .const d, _ => by simp [entries]
  | .store a k v, h => by
    simp only [hasSorts, Bool.and_eq_true] at h
    intro x hx
    rcases List.mem_append.1 hx with hx | hx
    · exact key_hasSort h.1.1 x hx
    · rw [List.mem_singleton.1 hx]
      exact h.1.2

/-- An updated index reads its own update if no other update is of the same index. -/
theorem get_of_mem {a : ArrayValue} (distinct : a.distinctKeys = true) {k v : Value}
    (scalar : k.isScalar = true) (mem : (k, v) ∈ a.entries) : a.get k = v := by
  match a with
  | .const d => cases mem
  | .store a key element =>
    simp only [distinctKeys, Bool.and_eq_true] at distinct
    obtain ⟨⟨distinct, fresh⟩, -⟩ := distinct
    rw [get, find]
    rcases List.mem_append.1 mem with old | new
    · have other := List.all_eq_true.1 fresh _ old
      simp only [Bool.not_eq_true'] at other
      rw [← Value.same_comm scalar, other]
      exact get_of_mem distinct scalar old
    · cases List.mem_singleton.1 new
      rw [Value.same_self_of_isScalar scalar]
      rfl

theorem find_distinctKeys (test : Value → Bool) : (a : ArrayValue) → a.distinctKeys = true →
    (a.find test).distinctKeys = true
  | .const d, h => by simpa [distinctKeys, find] using h
  | .store a k v, h => by
    simp only [distinctKeys, Bool.and_eq_true] at h
    rw [find]
    split
    · exact h.2
    · exact find_distinctKeys test a h.1.1

theorem entries_remove (test : Value → Bool) : (a : ArrayValue) →
    (a.remove test).entries = a.entries.filter fun x => !test x.1
  | .const d => rfl
  | .store a k v => by
    rw [remove, entries, List.filter_append, ← entries_remove test a]
    by_cases hit : test k = true
    · simp [hit]
    · simp [hit, entries]

theorem remove_lacks {test : Value → Bool} {a : ArrayValue} {k : Value} (h : a.lacks k = true) :
    (a.remove test).lacks k = true := by
  rw [lacks, entries_remove, List.all_eq_true]
  intro x hx
  exact List.all_eq_true.1 h x (List.mem_filter.1 hx).1

theorem remove_distinctKeys (test : Value → Bool) : (a : ArrayValue) → a.distinctKeys = true →
    (a.remove test).distinctKeys = true
  | .const d, h => by simpa [remove] using h
  | .store a k v, h => by
    simp only [distinctKeys, Bool.and_eq_true] at h
    rw [remove]
    split
    · exact remove_distinctKeys test a h.1.1
    · simp [distinctKeys, remove_distinctKeys test a h.1.1, remove_lacks h.1.2, h.2]

theorem set_distinctKeys {a : ArrayValue} {k v : Value} (ha : a.distinctKeys = true)
    (hv : v.distinctKeys = true) : (a.set k v).distinctKeys = true := by
  have dropped : (a.remove (·.same k)).lacks k = true := by
    rw [lacks, entries_remove, List.all_eq_true]
    intro x hx
    exact (List.mem_filter.1 hx).2
  simp [set, distinctKeys, remove_distinctKeys _ a ha, dropped, hv]

/-- An array is the same as itself if its default and its elements are. -/
theorem same_self_of_parts {a : ArrayValue} (distinct : a.distinctKeys = true)
    (scalar : ∀ x ∈ a.entries, x.1.isScalar = true)
    (default : a.default.same a.default = true ∧ a.default.sameAs a.default = true)
    (elements : ∀ x ∈ a.entries, x.2.same x.2 = true ∧ x.2.sameAs x.2 = true) :
    (Value.array a).same (.array a) = true ∧ (Value.array a).sameAs (.array a) = true := by
  have reads : ∀ x ∈ a.entries, a.get x.1 = x.2 :=
    fun x hx => get_of_mem distinct (scalar x hx) hx
  constructor
  · simp only [Value.same, sameDefault_eq, default, within_iff, Bool.and_eq_true, beq_self_eq_true,
      true_and]
    intro x hx
    have test : x.1.sameAs = fun key => key.same x.1 := funext fun _ => Value.sameAs_eq_same (scalar x hx)
    rw [test]
    change x.2.sameAs (a.get x.1) = true
    rw [reads x hx]
    exact (elements x hx).2
  · simp only [Value.sameAs, defaultSameAs_eq, default, Bool.and_eq_true, beq_self_eq_true, true_and,
      List.all_eq_true]
    intro x hx
    rw [holds_eq, reads x hx]
    exact (elements x hx).1

end ArrayValue

mutual

/-- A value of a sort is the same as itself. -/
theorem Value.same_self_both : (v : Value) → {s : TermSort} → v.hasSort s = true →
    s.scalarIndexed = true → v.distinctKeys = true → v.same v = true ∧ v.sameAs v = true
  | .bool b, _, _, _, _ => by simp [Value.same, Value.sameAs, Value.sameScalar]
  | .bitVec bits w, _, _, _, _ => by simp [Value.same, Value.sameAs, Value.sameScalar]
  | .float p x, _, _, _, _ => by simp [Value.same, Value.sameAs, Value.sameScalar]
  | .array a, s, sort, indexed, distinct => by
    cases s with
    | bool | bitVec | float => cases sort
    | array i e =>
      simp only [TermSort.scalarIndexed, Bool.and_eq_true, Bool.not_eq_true'] at indexed
      simp only [Value.hasSort] at sort
      simp only [Value.distinctKeys] at distinct
      have parts := a.parts_same_self sort indexed.2 distinct
      refine ArrayValue.same_self_of_parts distinct (fun x hx => ?_) parts.1 parts.2
      exact Term.isScalar_of_hasSort (ArrayValue.key_hasSort sort x hx) indexed.1

theorem ArrayValue.parts_same_self : (a : ArrayValue) → {i e : TermSort} → a.hasSorts i e = true →
    e.scalarIndexed = true → a.distinctKeys = true →
    (a.default.same a.default = true ∧ a.default.sameAs a.default = true) ∧
      ∀ x ∈ a.entries, x.2.same x.2 = true ∧ x.2.sameAs x.2 = true
  | .const d, i, e, sorts, indexed, distinct => by
    simp only [ArrayValue.hasSorts] at sorts
    simp only [ArrayValue.distinctKeys] at distinct
    exact ⟨d.same_self_both sorts indexed distinct, by simp [ArrayValue.entries]⟩
  | .store a k v, i, e, sorts, indexed, distinct => by
    simp only [ArrayValue.hasSorts, Bool.and_eq_true] at sorts
    simp only [ArrayValue.distinctKeys, Bool.and_eq_true] at distinct
    have parts := a.parts_same_self sorts.1.1 indexed distinct.1.1
    refine ⟨parts.1, fun x hx => ?_⟩
    rcases List.mem_append.1 hx with hx | hx
    · exact parts.2 x hx
    · rw [List.mem_singleton.1 hx]
      exact v.same_self_both sorts.2 indexed distinct.2

end

theorem Value.same_self {v : Value} {s : TermSort} (sort : v.hasSort s = true)
    (indexed : s.scalarIndexed = true) (distinct : v.distinctKeys = true) : v.same v = true :=
  (v.same_self_both sort indexed distinct).1

end SinkReach
