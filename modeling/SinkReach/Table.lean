/-!
Finite maps as association lists in ascending order of their keys. A key is found by equality alone;
the order only decides where a new key is put, so every look-up law holds whatever the order is.
-/
namespace SinkReach

structure Table (κ : Type u) (α : Type v) where
  entries : List (κ × α)
deriving Inhabited

namespace Table

variable {κ : Type u} {α : Type v} [BEq κ] [Ord κ]

def empty : Table κ α := ⟨[]⟩

instance : EmptyCollection (Table κ α) := ⟨empty⟩

/-- Value of the key in a list of entries. -/
def lookup (k : κ) : List (κ × α) → Option α
  | [] => none
  | (k', a) :: rest => if k' == k then some a else lookup k rest

def get? (t : Table κ α) (k : κ) : Option α := lookup k t.entries

def contains (t : Table κ α) (k : κ) : Bool := (t.get? k).isSome

/-- Gives the key a value where it stands, the new key taking the place of the old one. -/
def replace (k : κ) (a : α) : List (κ × α) → List (κ × α)
  | [] => []
  | (k', a') :: rest => if k' == k then (k, a) :: rest else (k', a') :: replace k a rest

/-- Puts a new key before the first greater one. -/
def place (k : κ) (a : α) : List (κ × α) → List (κ × α)
  | [] => [(k, a)]
  | (k', a') :: rest =>
    if compare k k' == .lt then (k, a) :: (k', a') :: rest else (k', a') :: place k a rest

def insert (t : Table κ α) (k : κ) (a : α) : Table κ α :=
  if t.contains k then ⟨replace k a t.entries⟩ else ⟨place k a t.entries⟩

/-- Keeps the entries whose key passes the test. -/
def filterKeys (t : Table κ α) (keep : κ → Bool) : Table κ α := ⟨t.entries.filter fun e => keep e.1⟩

def keys (t : Table κ α) : List κ := t.entries.map (·.1)

/-- Inserts the entries one after the other. -/
def insertAll (t : Table κ α) (entries : List (κ × α)) : Table κ α :=
  entries.foldl (fun t e => t.insert e.1 e.2) t

/-- Keys of either table in ascending order; of two equal keys the second table's. -/
def unionKeys {β : Type w} (t : Table κ α) (u : Table κ β) : List κ :=
  let own : Table κ Unit := ⟨t.entries.map fun e => (e.1, ())⟩
  (u.keys.foldl (fun ks k => ks.insert k ()) own).keys

def ofList (entries : List (κ × α)) : Table κ α := empty.insertAll entries

end Table
end SinkReach
