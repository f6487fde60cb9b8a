import Std.Data.String.ToNat
import SinkReach.Symbolic.Machine

/-!
Names of constants. Unknowns of the two kinds, the arrays of fields and the array of tags never share a
name, and different ones of a kind have different names.
-/
namespace SinkReach

/-- Name of an unknown that is no literal. -/
def localName (n : Nat) : String := "local_" ++ toString n

/-- Name of a literal of unknown content. -/
def unboundedName (n : Nat) : String := "unbounded_" ++ toString n

theorem localName_injective {m n : Nat} (h : localName m = localName n) : m = n :=
  Nat.repr_injective ((String.append_right_inj _).1 h)

theorem unboundedName_injective {m n : Nat} (h : unboundedName m = unboundedName n) : m = n :=
  Nat.repr_injective ((String.append_right_inj _).1 h)

/-- First character of a name. -/
def initialOf (name : String) : Option Char := name.toList.head?

theorem initialOf_localName (n : Nat) : initialOf (localName n) = some 'l' := by
  simp [initialOf, localName, String.toList_append]

theorem initialOf_unboundedName (n : Nat) : initialOf (unboundedName n) = some 'u' := by
  simp [initialOf, unboundedName, String.toList_append]

theorem localName_ne_unboundedName (m n : Nat) : localName m ≠ unboundedName n := by
  intro h
  have initials := congrArg initialOf h
  rw [initialOf_localName, initialOf_unboundedName] at initials
  cases initials

theorem Registry.initialOf_arrayName : initialOf arrayName = some 'a' := by decide

namespace Chunk

theorem toList_id (c : Chunk) : c.id.toList =
    Nat.toDigits 10 c.className.utf8ByteSize ++
      ':' :: (c.className.toList ++ '.' :: c.fieldName.toList) := by
  simp [id, String.toList_append, Nat.toList_repr]

/-- The name of a field's array starts with a digit. -/
theorem initialOf_id (c : Chunk) : ∃ d, initialOf c.id = some d ∧ d.isDigit = true := by
  rw [initialOf, toList_id]
  cases digits : Nat.toDigits 10 c.className.utf8ByteSize with
  | nil => exact absurd digits Nat.toDigits_ne_nil
  | cons d ds =>
    exact ⟨d, rfl, Nat.isDigit_of_mem_toDigits (by decide) (by decide) (digits ▸ List.mem_cons_self)⟩

theorem id_ne_of_initial {c : Chunk} {name : String} {d : Char} (initial : initialOf name = some d)
    (letter : d.isDigit = false) : c.id ≠ name := by
  intro h
  obtain ⟨e, he, digit⟩ := c.initialOf_id
  rw [h, initial] at he
  cases he
  rw [letter] at digit
  cases digit

theorem append_inj {s t s' t' : String} (h : s ++ t = s' ++ t')
    (size : s.utf8ByteSize = s'.utf8ByteSize) : s = s' ∧ t = t' := by
  have bytes : s.toByteArray ++ t.toByteArray = s'.toByteArray ++ t'.toByteArray := by
    rw [← String.toByteArray_append, ← String.toByteArray_append, h]
  have left := String.toByteArray_inj.1 (ByteArray.append_inj_left bytes (by simpa using size))
  subst left
  exact ⟨rfl, (String.append_right_inj s).1 h⟩

/-- What stands before the first mark determines the list up to it. -/
theorem append_mark_inj {α : Type} {mark : α} {xs ys zs ws : List α} (hx : mark ∉ xs) (hy : mark ∉ ys)
    (h : xs ++ mark :: zs = ys ++ mark :: ws) : xs = ys ∧ zs = ws := by
  induction xs generalizing ys with
  | nil =>
    cases ys with
    | nil =>
      cases h
      exact ⟨rfl, rfl⟩
    | cons y ys =>
      cases h
      exact absurd List.mem_cons_self hy
  | cons x xs ih =>
    cases ys with
    | nil =>
      cases h
      exact absurd List.mem_cons_self hx
    | cons y ys =>
      simp only [List.cons_append, List.cons.injEq] at h
      obtain ⟨rfl, h⟩ := h
      simp only [List.mem_cons, not_or] at hx hy
      obtain ⟨rfl, rfl⟩ := ih hx.2 hy.2 h
      exact ⟨rfl, rfl⟩

theorem colon_not_mem_toDigits (n : Nat) : ':' ∉ Nat.toDigits 10 n := by
  intro h
  have digit := Nat.isDigit_of_mem_toDigits (by decide) (by decide) h
  cases digit

/-- The name tells class and field apart, whatever characters they contain: the length of the class name
says where it ends. -/
theorem id_injective {c d : Chunk} (h : c.id = d.id) :
    c.className = d.className ∧ c.fieldName = d.fieldName := by
  have lists := congrArg String.toList h
  rw [toList_id, toList_id] at lists
  obtain ⟨digits, rest⟩ := append_mark_inj (colon_not_mem_toDigits _) (colon_not_mem_toDigits _) lists
  have size : c.className.utf8ByteSize = d.className.utf8ByteSize := by
    apply Nat.repr_injective
    rw [← String.toList_inj, Nat.toList_repr, Nat.toList_repr, digits]
  have texts : c.className ++ ("." ++ c.fieldName) = d.className ++ ("." ++ d.fieldName) := by
    rw [← String.toList_inj]
    simpa [String.toList_append] using rest
  obtain ⟨classes, fields⟩ := append_inj texts size
  exact ⟨classes, (String.append_right_inj ".").1 fields⟩

end Chunk
end SinkReach
