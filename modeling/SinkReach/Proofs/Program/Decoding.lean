import Mathlib.Algebra.Group.Int.Defs
import Mathlib.Algebra.Group.Nat.Defs
import Mathlib.Data.List.Nodup
import SinkReach.Program.Codec

/-!
Laws of reading documents. Where an object has no key twice, each field is its member of that name; the
kind of a tagged value is the member written first; lists, optional parts and names are read back if
their items are; and what is written is readable to a depth that its parts determine.
-/
namespace SinkReach

@[simp] theorem ok_bind {ε α β : Type} (a : α) (f : α → Except ε β) :
    (Except.ok a >>= f) = f a := rfl

@[simp] theorem pure_eq_ok {ε α : Type} (a : α) : (pure a : Except ε α) = .ok a := rfl

@[simp] theorem map_ok {ε α β : Type} (f : α → β) (a : α) :
    f <$> (Except.ok a : Except ε α) = .ok (f a) := rfl

namespace Json

variable {α : Type} {depth : Nat}

@[simp] theorem isReadable_str (s : String) : (str s).isReadable depth = true := by cases depth <;> rfl

@[simp] theorem isReadable_bool (b : Bool) : (bool b).isReadable depth = true := by cases depth <;> rfl

@[simp] theorem isReadable_int (n : Int) : (int n).isReadable depth = true := by cases depth <;> rfl

@[simp] theorem isReadable_float (bits : Nat) : (float bits).isReadable depth = true := by
  cases depth <;> rfl

@[simp] theorem isReadable_obj {members : List (String × Json)} : (obj members).isReadable (depth + 1) ↔
    ∀ m ∈ members, m.2.isReadable depth := by simp [isReadable]

@[simp] theorem isReadable_ofList {encode : α → Json} {as : List α} :
    (ofList encode as).isReadable (depth + 1) ↔ ∀ a ∈ as, (encode a).isReadable depth := by
  simp [ofList, isReadable]

@[simp] theorem isReadable_ofOption {encode : α → Json} {a? : Option α} :
    (ofOption encode a?).isReadable depth ↔ ∀ a ∈ a?, (encode a).isReadable depth := by
  cases a? with
  | none => cases depth <;> simp [ofOption, isReadable]
  | some a => simp [ofOption]

end Json

namespace Decode

variable {α : Type} {members : List (String × Json)} {position : Nat} {key name : String} {j : Json}
  {item : Json → Decoded α} {encode : α → Json}

/-- Fields of an object, whatever their positions. -/
def ofMembers (members : List (String × Json)) : Fields :=
  ⟨fun _ name => (members.find? fun m => m.1 == name).map (·.2)⟩

theorem fields_obj (names : List String) (once : (members.map Prod.fst).Nodup) :
    fields names (.obj members) = .ok (ofMembers members) := by
  refine if_pos (List.all_eq_true.2 fun name _ => decide_eq_true ?_)
  have count := List.nodup_iff_count_le_one.1 once name
  rwa [List.count, List.countP_map, List.countP_eq_length_filter] at count

@[simp] theorem required_self : (ofMembers ((name, j) :: members)).required position name item = item j := by
  simp [ofMembers, Fields.required, ofOption]

@[simp] theorem required_of_ne (other : key ≠ name) :
    (ofMembers ((key, j) :: members)).required position name item =
      (ofMembers members).required position name item := by
  simp [ofMembers, Fields.required, other]

@[simp] theorem optional_self {default : α} :
    (ofMembers ((name, j) :: members)).optional position name item default = item j := by
  simp [ofMembers, Fields.optional]

@[simp] theorem optional_of_ne {default : α} (other : key ≠ name) :
    (ofMembers ((key, j) :: members)).optional position name item default =
      (ofMembers members).optional position name item default := by
  simp [ofMembers, Fields.optional, other]

@[simp] theorem optional_nil {default : α} :
    (ofMembers []).optional position name item default = .ok default := rfl

/-- A thing made of one field. -/
theorem fields_single {β : Type} {a : α} (make : α → β) (h : item j = .ok a) :
    (do
      let f ← fields [name] (.obj [(name, j)])
      return make (← f.required 0 name item)) = Except.ok (make a) := by
  simp [fields_obj, h]

/-- The member written first carries the kind, the others the fields. -/
theorem tagged_obj {tag kind : String} {kindName : Json → Decoded String}
    (read : kindName (.str kind) = .ok kind) (fresh : ∀ m ∈ members, m.1 ≠ tag) :
    tagged tag kindName (.obj ((tag, .str kind) :: members)) = .ok (kind, .obj members) := by
  have alone : members.filter (fun m => m.1 == tag) = [] := by simpa using fresh
  have others : members.filter (fun m => !(m.1 == tag)) = members := by simpa using fresh
  simp only [tagged, List.filter_cons, beq_self_eq_true, if_true, Bool.not_true, Bool.false_eq_true,
    if_false, alone, others, read]
  rfl

theorem tagged_bind {tag kind : String} {kindName : Json → Decoded String}
    (read : kindName (.str kind) = .ok kind) (fresh : ∀ m ∈ members, m.1 ≠ tag)
    (f : String × Json → Decoded α) :
    (tagged tag kindName (.obj ((tag, .str kind) :: members)) >>= f) = f (kind, .obj members) := by
  rw [tagged_obj read fresh, ok_bind]

theorem str_str (s : String) : str (.str s) = .ok s := rfl

theorem flag_bool (b : Bool) : flag (.bool b) = .ok b := rfl

theorem list_ofList {as : List α} (h : ∀ a ∈ as, item (encode a) = .ok a) :
    list item (.ofList encode as) = .ok as := by
  change (as.map encode).mapM item = .ok as
  induction as with
  | nil => rfl
  | cons a as ih =>
    rw [List.forall_mem_cons] at h
    rw [List.map_cons, List.mapM_cons, h.1, ih h.2]
    rfl

theorem nullable_value {a : α} (value : j ≠ .null) (h : item j = .ok a) :
    nullable item j = .ok (some a) := by
  rw [nullable.eq_2 _ _ value, h]
  rfl

theorem nullable_ofOption {a? : Option α} (value : ∀ a, encode a ≠ .null)
    (h : ∀ a ∈ a?, item (encode a) = .ok a) : nullable item (.ofOption encode a?) = .ok a? := by
  cases a? with
  | none => rfl
  | some a => exact nullable_value (value a) (h a rfl)

theorem named_nameOf {saysNothing : Json → Bool} {all : List α} {nameOf : α → String} {a : α}
    (distinct : (all.map nameOf).Nodup) (mem : a ∈ all) :
    named saysNothing all nameOf (.str (nameOf a)) = .ok a := by
  obtain ⟨b, found⟩ : ∃ b, all.find? (fun b => nameOf b == nameOf a) = some b :=
    Option.isSome_iff_exists.1 (List.find?_isSome.2 ⟨a, mem, beq_self_eq_true _⟩)
  have same : nameOf b = nameOf a := by simpa using List.find?_some found
  have eq := List.inj_on_of_nodup_map distinct (List.mem_of_find?_eq_some found) mem same
  subst eq
  change ofOption (all.find? _) = .ok b
  rw [found]
  rfl

/-- Whether an integer is one of the signed integers of `bits` bits. -/
def IsSigned (bits : Nat) (n : Int) : Prop := -2 ^ (bits - 1) ≤ n ∧ n < 2 ^ (bits - 1)

theorem signed_int {bits : Nat} {n : Int} (h : IsSigned bits n) : signed bits (.int n) = .ok n := by
  refine if_pos ?_
  rwa [Nat.pow_eq, Int.natCast_pow]

/-- Whether a number is one of the unsigned integers of `bits` bits. -/
def IsUnsigned (bits n : Nat) : Prop := n < 2 ^ bits

theorem unsigned_ofNat {bits n : Nat} (h : IsUnsigned bits n) : unsigned bits (.ofNat n) = .ok n := by
  have range : 0 ≤ (n : Int) ∧ (n : Int) < (Nat.pow 2 bits : Nat) :=
    ⟨Int.natCast_nonneg n, Int.ofNat_lt.2 h⟩
  rw [unsigned, Json.ofNat, Json.natBelow?, if_pos range]
  rfl

theorem kept_ok {depth : Nat} {a : α} (readable : j.isReadable depth) (h : item j = .ok a) :
    kept depth item j = .ok a := by
  rw [kept, if_pos readable, h]

end Decode
end SinkReach
