import SinkReach.Yaml.Token

/-!
YAML documents without sequences. Every key and every value is a node; a node that is left out is an
empty plain scalar. Aliases stand for the latest node of their name, which has to be complete.
-/
namespace SinkReach

/-- A scalar with its style and tag, or a mapping in the order of its entries. -/
inductive Yaml where
  | scalar (text : String) (style : Yaml.Style) (tag : Option String)
  | mapping (entries : List (Yaml × Yaml))
deriving Inhabited

namespace Yaml

/-- A node that is left out. -/
def absent : Yaml := scalar "" .plain none

/-- What is left to read, and the named nodes, the latest first; one that is not complete has none. -/
structure Reading where
  tokens : List Token
  anchors : List (String × Option Yaml) := []

namespace Reading

def withTokens (r : Reading) (tokens : List Token) : Reading := { r with tokens }

/-- Names a node, if it has a name. -/
def name (r : Reading) (anchor : Option String) (node : Option Yaml) : Reading :=
  match anchor with
  | some a => { r with anchors := (a, node) :: r.anchors }
  | none => r

/-- Gives the latest incomplete node of a name its contents. -/
def complete (r : Reading) (anchor : Option String) (node : Yaml) : Reading :=
  { r with anchors := go r.anchors }
where
  go : List (String × Option Yaml) → List (String × Option Yaml)
    | [] => []
    | (a, n) :: rest =>
      if anchor = some a && n.isNone then (a, some node) :: rest else (a, n) :: go rest

end Reading

/-- Handles of tags with the texts that they stand for. -/
abbrev Handles := List (String × String)

/-- Handles that need no directive. -/
def defaultHandles : Handles := [("!", "!"), ("!!", "tag:yaml.org,2002:")]

/-- Tag of a handle and a suffix. -/
def Handles.resolve (handles : Handles) (handle suffix : String) : Option String :=
  if handle.isEmpty then some suffix else (handles.lookup handle).map (· ++ suffix)

/-- Properties of a node. -/
structure Properties where
  anchor : Option String := none
  tag : Option String := none

/-- Reads an anchor and a tag in either order. -/
def properties (handles : Handles) : List Token → Option (Properties × List Token)
  | .anchor a :: .tag h s :: ts => do return (⟨a, some (← handles.resolve h s)⟩, ts)
  | .anchor a :: ts => some ({ anchor := a }, ts)
  | .tag h s :: .anchor a :: ts => do return (⟨a, some (← handles.resolve h s)⟩, ts)
  | .tag h s :: ts => do return ({ tag := some (← handles.resolve h s) }, ts)
  | ts => some ({}, ts)

/-- Whether a token ends a block entry that has no node. -/
def endsBlockEntry : List Token → Bool
  | .key :: _ | .value :: _ | .blockEnd :: _ => true
  | _ => false

/-- Whether a token ends a flow entry that has no node. -/
def endsFlowEntry : List Token → Bool
  | .value :: _ | .flowEntry :: _ | .flowEnd :: _ => true
  | _ => false

mutual

/-- A node; block mappings only where blocks can be. The number bounds the steps. -/
def node? (handles : Handles) (block : Bool) : Nat → Reading → Option (Yaml × Reading)
  | 0, _ => none
  | fuel + 1, r =>
    match r.tokens with
    | .alias a :: ts => do return (← (r.anchors.lookup a).join, r.withTokens ts)
    | ts => do
      let (p, ts) ← properties handles ts
      match ts with
      | .scalar text style :: ts =>
        let n := scalar text style (p.tag.filter (· ≠ "!"))
        return (n, (r.withTokens ts).name p.anchor n)
      | .flowStart :: ts => do
        let (entries, r) ← flowEntries? handles fuel true [] ((r.withTokens ts).name p.anchor none)
        return (mapping entries, r.complete p.anchor (mapping entries))
      | .blockStart :: ts => do
        if !block then none
        let (entries, r) ← blockEntries? handles fuel [] ((r.withTokens ts).name p.anchor none)
        return (mapping entries, r.complete p.anchor (mapping entries))
      | ts =>
        if p.anchor.isNone && p.tag.isNone then none
        else
          let n := scalar "" .plain p.tag
          return (n, (r.withTokens ts).name p.anchor n)

/-- Entries of a block up to its end, after those given the latest first. -/
def blockEntries? (handles : Handles) : Nat → List (Yaml × Yaml) → Reading →
    Option (List (Yaml × Yaml) × Reading)
  | 0, _, _ => none
  | fuel + 1, done, r => do
    let part (r : Reading) : Option (Yaml × Reading) :=
      if endsBlockEntry r.tokens then some (absent, r) else node? handles true fuel r
    match r.tokens with
    | .blockEnd :: ts => return (done.reverse, r.withTokens ts)
    | .key :: ts =>
      let (key, r) ← part (r.withTokens ts)
      match r.tokens with
      | .value :: ts =>
        let (value, r) ← part (r.withTokens ts)
        blockEntries? handles fuel ((key, value) :: done) r
      | _ => blockEntries? handles fuel ((key, absent) :: done) r
    | _ => none

/-- Entries between braces up to the closing one, after those given the latest first. -/
def flowEntries? (handles : Handles) : Nat → Bool → List (Yaml × Yaml) → Reading →
    Option (List (Yaml × Yaml) × Reading)
  | 0, _, _, _ => none
  | fuel + 1, first, done, r => do
    let part (r : Reading) : Option (Yaml × Reading) :=
      if endsFlowEntry r.tokens then some (absent, r) else node? handles false fuel r
    let ts ← match r.tokens with
      | .flowEnd :: _ => some r.tokens
      | .flowEntry :: ts => if first then none else some ts
      | ts => if first then some ts else none
    match ts with
    | .flowEnd :: ts => return (done.reverse, r.withTokens ts)
    | .key :: ts =>
      let (key, r) ← part (r.withTokens ts)
      match r.tokens with
      | .value :: ts =>
        let (value, r) ← part (r.withTokens ts)
        flowEntries? handles fuel false ((key, value) :: done) r
      | _ => flowEntries? handles fuel false ((key, absent) :: done) r
    | ts =>
      let (key, r) ← node? handles false fuel (r.withTokens ts)
      flowEntries? handles fuel false ((key, absent) :: done) r

end

/-- Directives of a document: the handles they define, and what follows them. -/
def directives? (versioned : Bool) (handles : Handles) : List Token → Option (Handles × List Token)
  | .version major minor :: ts =>
    if versioned || major ≠ 1 || !(minor = 1 || minor = 2) then none
    else directives? true handles ts
  | .tagHandle h uri :: ts =>
    if (handles.lookup h).isSome then none else directives? versioned ((h, uri) :: handles) ts
  | ts => some (handles ++ defaultHandles, ts)

/-- Whether a document has no node. -/
def endsDocument : List Token → Bool
  | [] | .version _ _ :: _ | .tagHandle _ _ :: _ | .documentStart :: _ | .documentEnd :: _ => true
  | _ => false

/-- The only document of a text, a mark of its end apart. -/
def parse? (text : String) : Option Yaml := do
  let tokens ← tokens? text
  let isMark (t : Token) : Bool := t = .documentEnd
  let fuel := 2 * tokens.length + 2
  if tokens.isEmpty then return absent
  let (handles, ts) ← directives? false [] tokens
  let (n, rest) ← match ts with
    | .documentStart :: ts =>
      if endsDocument ts then some (absent, ts)
      else (node? handles true fuel ⟨ts, []⟩).map fun (n, r) => (n, r.tokens)
    | ts =>
      if ts.length < tokens.length then none
      else (node? handles true fuel ⟨ts, []⟩).map fun (n, r) => (n, r.tokens)
  if (rest.dropWhile isMark).isEmpty then some n else none

end Yaml
end SinkReach
