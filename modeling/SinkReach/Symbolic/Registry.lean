import SinkReach.Symbolic.Value

/-!
Tags of reference types. Every type gets a number from one, in the order of first use, and the dynamic
type of an address is the element at that address of one free array. There are no subtypes: a value of
a type carries exactly that type's tag, or is null.
-/
namespace SinkReach

/-- Types that have a tag, the first one first. -/
structure Registry where
  types : List Ty
deriving Inhabited

namespace Registry

def empty : Registry := ⟨[]⟩

/-- Tag of a type, given on first use. -/
def tagOf (r : Registry) (ty : Ty) : Nat × Registry :=
  match r.types.findIdx? (· == ty) with
  | some i => (i + 1, r)
  | none => (r.types.length + 1, ⟨r.types ++ [ty]⟩)

def arrayName : String := "addrToTypeId"

/-- The array of tags, one node for all states. -/
def tags : Term := .var 0 arrayName (.array Address.sort (.bitVec 32))

/-- Tag of an address. -/
def tag (l : Label) (address : Term) : Term := .select l tags address

def isNull (l : Label) (address : Term) : Term := .eq l address (Address.null (l + 1))

def isNotNull (l : Label) (address : Term) : Term := .not l (isNull (l + 1) address)

/-- The address is not null and carries a tag. -/
def hasTag (l : Label) (address : Term) (id : Nat) : Term :=
  .and l (.eq (l + 1) (tag (l + 2) address) (.ofInt (l + 3) id 32)) (isNotNull (l + 4) address)

/-- The address is an object of exactly a type; uses at most 8 labels. -/
def typeConstraint (l : Label) (r : Registry) (address : Term) (ty : Ty) : Term × Registry :=
  let (id, r) := r.tagOf ty
  (hasTag l address id, r)

/-- The address is an object of exactly a type, or null; uses at most 16 labels. -/
def typeOrNull (l : Label) (r : Registry) (address : Term) (ty : Ty) : Term × Registry :=
  let (object, r) := typeConstraint l r address ty
  (.or (l + 8) object (isNull (l + 9) address), r)

end Registry
end SinkReach
