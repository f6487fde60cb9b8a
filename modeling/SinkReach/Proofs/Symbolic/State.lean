import SinkReach.Proofs.Table
import SinkReach.Symbolic.State

/-!
What is read back from a state after its updates.
-/
namespace SinkReach

instance : EquivBEq Chunk where
  rfl := by simp [BEq.beq]
  symm := by
    intro a b h
    simp only [BEq.beq, Bool.and_eq_true, decide_eq_true_eq] at h ⊢
    exact ⟨h.1.symm, h.2.symm⟩
  trans := by
    intro a b c h h'
    simp only [BEq.beq, Bool.and_eq_true, decide_eq_true_eq] at h h' ⊢
    exact ⟨h.1.trans h'.1, h.2.trans h'.2⟩

namespace Memory

variable (m : Memory) (id id' : LocalId) (v : SymValue) (l l' : Label) (c d : Chunk) (i e : Term)

theorem local?_bind : (m.bind id v).local? id' = if id = id' then some v else m.local? id' := by
  unfold local? bind
  rw [Table.get?_insert]
  simp only [beq_iff_eq]

theorem array_setArray : (m.setArray c e).array l d = if c == d then e else m.array l d := by
  unfold setArray
  rw [array, Table.get?_insert, apply_ite (Option.getD · (d.initial l))]
  rfl

theorem array_store : (m.store l c i e).array l' d =
    if c == d then .store l (m.array (l + 1) c) i e else m.array l' d := array_setArray ..

theorem local?_withoutLocalsOf (method : Method) :
    (m.withoutLocalsOf method).local? id = if id.method = method then none else m.local? id := by
  unfold local? withoutLocalsOf
  rw [Table.get?_filterKeys]
  by_cases same : id.method = method
  · simp [same]
  · simp [same]

theorem bindAll_cons (b : LocalId × SymValue) (bs : List (LocalId × SymValue)) :
    m.bindAll (b :: bs) = (m.bind b.1 b.2).bindAll bs := rfl

end Memory

/-- Conditions that updates assume, in order. -/
def Update.conditions : List Update → List Term
  | [] => []
  | .constraint c :: us => c :: conditions us
  | _ :: us => conditions us

namespace SymState

theorem constraints_updateAll (l : Label) (s : SymState) (us : List Update) :
    (s.updateAll l us).constraints = s.constraints ++ Update.conditions us := by
  induction us generalizing l s with
  | nil => rw [updateAll, Update.conditions, List.append_nil]
  | cons u us ih =>
    rw [updateAll, ih]
    cases u with
    | constraint c => simp [update, assume, Update.conditions]
    | allocate | bind | store | set => rfl

theorem nextAddress_le_update (l : Label) (s : SymState) (u : Update) :
    s.nextAddress ≤ (s.update l u).nextAddress := by
  cases u with
  | allocate n => exact Nat.le_max_left ..
  | constraint | bind | store | set => exact Nat.le_refl _

theorem nextAddress_le_updateAll (l : Label) (s : SymState) (us : List Update) :
    s.nextAddress ≤ (s.updateAll l us).nextAddress := by
  induction us generalizing l s with
  | nil => exact Nat.le_refl _
  | cons u us ih => exact Nat.le_trans (nextAddress_le_update l s u) (ih ..)

/-- Reserved addresses are not given out again. -/
theorem le_nextAddress_of_allocate {l : Label} {s : SymState} {us : List Update} {n : Nat}
    (h : .allocate n ∈ us) : n ≤ (s.updateAll l us).nextAddress := by
  induction us generalizing l s with
  | nil => cases h
  | cons u us ih =>
    rcases List.mem_cons.1 h with rfl | h
    · have reserved : n ≤ (s.update l (.allocate n)).nextAddress := Nat.le_max_right ..
      exact Nat.le_trans reserved (nextAddress_le_updateAll ..)
    · exact ih h

end SymState
end SinkReach
