import SinkReach.Proofs.Term.Folding
import SinkReach.Proofs.Term.Memory

/-!
Soundness of evaluation with respect to sorts. A well-sorted term whose sorts have values, under an
assignment that binds its constants to values of their sorts, has a value and one of its sort, whatever
was evaluated and remembered before.
-/
namespace SinkReach

namespace Assignment

/-- The values of an assignment where they are of the sort asked for, and sample values elsewhere. -/
def completed (σ : Assignment) : Valuation := fun name s =>
  match σ.get? name with
  | some v => if v.hasSort s then some v else some s.sampleValue
  | none => some s.sampleValue

theorem completed_wellSorted (σ : Assignment) : σ.completed.WellSorted := by
  intro name s valued
  unfold completed
  split
  · split
    next sort => exact ⟨_, rfl, sort⟩
    next => exact ⟨_, rfl, TermSort.sampleValue_hasSort valued⟩
  · exact ⟨_, rfl, TermSort.sampleValue_hasSort valued⟩

theorem WellSorted.completed {σ : Assignment} {ts : List Term} (h : σ.WellSorted ts) {t : Term}
    (mem : t ∈ ts) : t.denote σ.valuation = t.denote σ.completed := by
  refine Term.denote_congr fun x hx => ?_
  obtain ⟨v, found, sort⟩ := h x (Term.mem_varsAll.2 ⟨t, mem, hx⟩)
  simp only [Assignment.valuation, Assignment.completed, found, if_pos sort]

end Assignment

namespace Term

/-- Evaluation succeeds with a value of the term's sort, and remembering earlier values changes nothing. -/
theorem eval_hasSort {env : Assignment} {t : Term} (sorted : t.wellSorted TermSort.valued = true)
    (bound : env.WellSorted [t]) :
    ∃ v, t.eval env = .ok v ∧ v.hasSort t.sort = true ∧
      ∀ memory : Memory, memory.Sound env →
        ∃ memory' : Memory, memory'.Sound env ∧ (t.recallValue env).run.run memory = (.ok v, memory') := by
  obtain ⟨v, value, sort⟩ := denote_hasSort env.completed_wellSorted sorted
  rw [← bound.completed (List.mem_singleton.2 rfl), ← value?_eq_denote, value?_eq_some] at value
  refine ⟨v, value, sort, ?_⟩
  intro memory sound
  rw [← value]
  exact answers_recallValue env t memory sound

/-- A cell of a table of rows, in the row that a number selects and the column that a test selects. -/
def cell : Term :=
  let table := leaf 0 (.var "table" (.array (.bitVec 8) (.array .bool (.float .single))))
  let x := leaf 1 (.var "x" (.bitVec 8))
  let column := binary 3 (.compare .slt) x (leaf 2 (.bitVec 3 8))
  unary 6 (.fpToFp .double) (binary 5 .select (binary 4 .select table x) column)

def filledTable : Assignment :=
  .ofList [("table", .array (.const (.array (.const (.float .single 0x3f800000))))), ("x", .bitVec 253 8)]

theorem eval_hasSort_cell : ∃ v, cell.eval filledTable = .ok v ∧ v.hasSort (.float .double) = true := by
  have bound : filledTable.WellSorted [cell] := by
    have entries : varsAll [cell] = [("table", .array (.bitVec 8) (.array .bool (.float .single))),
      ("x", .bitVec 8), ("x", .bitVec 8)] := rfl
    intro x hx
    rw [entries] at hx
    simp only [List.mem_cons, List.not_mem_nil, or_false] at hx
    rcases hx with rfl | rfl | rfl
    · exact ⟨_, rfl, rfl⟩
    · exact ⟨_, rfl, rfl⟩
    · exact ⟨_, rfl, rfl⟩
  obtain ⟨v, value, sort, -⟩ := eval_hasSort (t := cell) rfl bound
  exact ⟨v, value, sort⟩

end Term
end SinkReach
