import SinkReach.Program.Codec
import SinkReach.Route.Node

/-!
Taint paths: the program points that a query has to visit in order, the sink last. A return entry may
name the call site that it returns to, which lets execution leave a method whose caller was never
entered.
-/
namespace SinkReach

/-- Role of an entry. -/
inductive EntryKind where
  | assign
  | entryPoint
  | inCall
  | inOutCall
  | outCall
  | read
  | ret
  | sink
deriving DecidableEq, Repr, Inhabited

namespace EntryKind

def all : List EntryKind := [assign, entryPoint, inCall, inOutCall, outCall, read, ret, sink]

def name : EntryKind → String
  | assign => "assign"
  | entryPoint => "entry_point"
  | inCall => "in_call"
  | inOutCall => "in_out_call"
  | outCall => "out_call"
  | read => "read"
  | ret => "return"
  | sink => "sink"

def decode : Json → Decoded EntryKind := Decode.named Decode.isNull all name

end EntryKind

structure TaintEntry where
  kind : EntryKind
  method : Method
  instr : InstrId
  callSite : Option InstrId
  callMethod : Option Method
deriving DecidableEq, Repr, Inhabited

namespace TaintEntry

/-- Call site and calling method of a return entry that names both. -/
def returnSite? (e : TaintEntry) : Option (InstrId × Method) :=
  match e.kind, e.callSite, e.callMethod with
  | .ret, some site, some method => some (site, method)
  | _, _, _ => none

def names (e : TaintEntry) (m : Method) (i : InstrId) : Bool := e.instr = i && e.method = m

open Decode in
def decode (j : Json) : Decoded TaintEntry := do
  let f ← fields ["kind", "method", "instr", "call_site", "call_method"] j
  return {
    kind := ← f.required 0 "kind" EntryKind.decode
    method := ← f.required 1 "method" Method.decode
    instr := ← f.required 2 "instr" InstrId.decode
    callSite := ← f.optional 3 "call_site" (nullable InstrId.decode) none
    callMethod := ← f.optional 4 "call_method" (nullable Method.decode) none }

/-- Absent call sites and calling methods are left out. -/
def encode (e : TaintEntry) : Json :=
  .obj ([("kind", .str e.kind.name), ("method", e.method.encode), ("instr", InstrId.encode e.instr)] ++
    (e.callSite.map fun i => ("call_site", InstrId.encode i)).toList ++
    (e.callMethod.map fun m => ("call_method", m.encode)).toList)

end TaintEntry

/-- Entries of a taint path; there is at least one. -/
structure TaintPath where
  entries : List TaintEntry
  nonempty : entries ≠ []

namespace TaintPath

def ofEntries? (entries : List TaintEntry) : Option TaintPath :=
  if h : entries = [] then none else some ⟨entries, h⟩

def first (p : TaintPath) : TaintEntry := p.entries.head p.nonempty

/-- The last entry, which proves the path. -/
def sink (p : TaintPath) : TaintEntry := p.entries.getLast p.nonempty

def isSink (p : TaintPath) (m : Method) (i : InstrId) : Bool := p.sink.names m i

/-- Instructions of a method that the path names, in its order. -/
def keys (p : TaintPath) (m : Method) : List InstrId :=
  (p.entries.filter fun e => e.method = m).map (·.instr)

def hasKeys (p : TaintPath) (m : Method) : Bool := p.entries.any fun e => e.method = m

/-- The latest entry that names an instruction. -/
def entryAt? (p : TaintPath) (m : Method) (i : InstrId) : Option TaintEntry :=
  p.entries.reverse.find? fun e => e.names m i

def decode (j : Json) : Decoded TaintPath := do
  match ofEntries? (← Decode.list TaintEntry.decode j) with
  | some p => return p
  | none => .error .emptyTaintPath

def encode (p : TaintPath) : Json := .ofList TaintEntry.encode p.entries

end TaintPath
end SinkReach
