import SinkReach.Yaml.Scalar

/-!
Tokens of YAML without sequences, which are refused. Where a key is not marked as one, its mark goes in
front of it once the colon behind it is met; the scanner remembers where such a key may have begun. The
end of a block is a token of its own, found by indentation.
-/
namespace SinkReach.Yaml

inductive Token where
  | version (major minor : Nat)
  | tagHandle (handle uri : String)
  | documentStart
  | documentEnd
  | blockStart
  | blockEnd
  | flowStart
  | flowEnd
  | flowEntry
  | key
  | value
  | alias (name : String)
  | anchor (name : String)
  | tag (handle suffix : String)
  | scalar (text : String) (style : Style)
deriving DecidableEq, Repr, Inhabited

/-- Place where a key without mark may have begun. -/
structure KeyPlace where
  start : Glyph
  /-- Number of tokens before it. -/
  position : Nat
  /-- Whether nothing but a key can stand there. -/
  required : Bool
deriving DecidableEq, Repr, Inhabited

namespace KeyPlace

/-- A key stays on its line and is not longer than 1024 characters. -/
def isStale (k : KeyPlace) (g : Glyph) : Bool :=
  k.start.line < g.line || k.start.index + 1024 < g.index

end KeyPlace

structure Scanner where
  /-- Tokens so far, the latest first. -/
  tokens : List Token := []
  indent : Int := -1
  /-- Indentations of the enclosing blocks, the innermost first. -/
  outer : List Int := []
  keyAllowed : Bool := true
  place : Option KeyPlace := none
  /-- Places outside each of the open braces, the innermost first. -/
  outerPlaces : List (Option KeyPlace) := []

namespace Scanner

def inFlow (s : Scanner) : Bool := !s.outerPlaces.isEmpty

def push (s : Scanner) (t : Token) : Scanner := { s with tokens := t :: s.tokens }

/-- Puts a token behind the first `position` ones. -/
def pushAt (s : Scanner) (position : Nat) (t : Token) : Scanner :=
  let later := s.tokens.length - position
  { s with tokens := s.tokens.take later ++ t :: s.tokens.drop later }

def allowKey (s : Scanner) (allowed : Bool) : Scanner := { s with keyAllowed := allowed }

/-- Gives up the place of a key; one that is required must not be given up. -/
def forget (s : Scanner) : Option Scanner :=
  if s.place.any (·.required) then none else some { s with place := none }

/-- Gives up places that are stale. -/
def forgetStale (s : Scanner) (g : Glyph) : Option Scanner :=
  let stale (k : KeyPlace) : Bool := k.isStale g
  if (s.place :: s.outerPlaces).any fun p => p.any fun k => stale k && k.required then none
  else some { s with
    place := s.place.filter (!stale ·)
    outerPlaces := s.outerPlaces.map (·.filter (!stale ·)) }

/-- Remembers that a key may begin here, if that is allowed. -/
def remember (s : Scanner) (g : Glyph) : Option Scanner :=
  if s.keyAllowed then do
    let s ← s.forget
    return { s with place := some ⟨g, s.tokens.length, !s.inFlow && s.indent = g.column⟩ }
  else some s

/-- Starts a block at a deeper column, its token behind the first `position` ones. -/
def startBlock (s : Scanner) (column position : Nat) : Scanner :=
  if s.inFlow || (column : Int) ≤ s.indent then s
  else { s.pushAt position .blockStart with indent := column, outer := s.indent :: s.outer }

/-- Ends the blocks that are deeper than a column. -/
def endBlocks (s : Scanner) (column : Int) : Scanner :=
  if s.inFlow then s else go s.tokens s.indent s.outer
where
  go (tokens : List Token) (indent : Int) : List Int → Scanner
    | [] => { s with tokens, indent, outer := [] }
    | next :: outer =>
      if column < indent then go (.blockEnd :: tokens) next outer
      else { s with tokens, indent, outer := next :: outer }

/-- A mark that ends all blocks. -/
def atDocument (s : Scanner) (t : Token) : Option Scanner := do
  let s ← (s.endBlocks (-1)).forget
  return (s.allowKey false).push t

/-- A mark of a key. -/
def markKey (s : Scanner) (g : Glyph) : Option Scanner := do
  if !s.inFlow && !s.keyAllowed then none
  let s ← (s.startBlock g.column s.tokens.length).forget
  return (s.allowKey !s.inFlow).push .key

/-- A mark of a value, whose key may have had no mark. -/
def markValue (s : Scanner) (g : Glyph) : Option Scanner :=
  match s.place with
  | some k =>
    let s := (s.pushAt k.position .key).startBlock k.start.column k.position
    some (({ s with place := none }.allowKey false).push .value)
  | none =>
    if !s.inFlow && !s.keyAllowed then none
    else some (((s.startBlock g.column s.tokens.length).allowKey !s.inFlow).push .value)

def openFlow (s : Scanner) (g : Glyph) : Option Scanner := do
  let s ← s.remember g
  return ({ s with place := none, outerPlaces := s.place :: s.outerPlaces }.allowKey true).push .flowStart

def closeFlow (s : Scanner) : Option Scanner := do
  let s ← s.forget
  match s.outerPlaces with
  | [] => none
  | place :: outerPlaces => return ({ s with place, outerPlaces }.allowKey false).push .flowEnd

/-- A token that can be a key or stand before one. -/
def pushNode (s : Scanner) (g : Glyph) (t : Token) : Option Scanner := do
  let s ← s.remember g
  return (s.allowKey false).push t

end Scanner

/-- Letters, digits, underscores and hyphens. -/
def isWord (g : Glyph) : Bool := g.char.isAlphanum || g.char = '_' || g.char = '-'

/-- Name of an anchor or alias, which white space or one of some marks follows. -/
def anchorName? (gs : List Glyph) : Option (String × List Glyph) :=
  let rest := gs.dropWhile isWord
  if atAny ['?', ':', ',', ']', '}', '%', '@', '\x60'] rest || atSpace rest then
    if (gs.takeWhile isWord).isEmpty then none else some (textOf (gs.takeWhile isWord), rest)
  else none

/-- A tag handle: an exclamation mark, a word and, unless it is the start of a tag, a second mark. -/
def tagHandle : List Glyph → String × List Glyph
  | [] => ("", [])
  | g :: gs =>
    match gs.dropWhile isWord with
    | c :: rest =>
      if c.char = '!' then (textOf (g :: gs.takeWhile isWord ++ [c]), rest)
      else (textOf (g :: gs.takeWhile isWord), c :: rest)
    | [] => (textOf (g :: gs.takeWhile isWord), [])

/-- Characters of a tag besides words and escapes. -/
def uriMarks : List Char := ";/?:@&=+$.!~*'()".toList

/-- Bytes of a tag, those of escapes decoded, and what follows it. -/
def uriBytes? (verbatim : Bool) (read : List Nat) : List Glyph → Option (List Nat × List Glyph)
  | [] => some (read.reverse, [])
  | g :: rest =>
    if g.char = '%' then
      match rest with
      | a :: b :: rest => do
        let n := (← Json.hexDigit? a.char) * 16 + (← Json.hexDigit? b.char)
        uriBytes? verbatim (n :: read) rest
      | _ => none
    else if isWord g || uriMarks.contains g.char || (verbatim && [',', '[', ']'].contains g.char) then
      uriBytes? verbatim (g.char.toNat :: read) rest
    else some (read.reverse, g :: rest)

/-- Text of a tag and what follows it. -/
def uri? (verbatim : Bool) (gs : List Glyph) : Option (String × List Glyph) := do
  let (bytes, rest) ← uriBytes? verbatim [] gs
  return (← String.fromUTF8? ⟨(bytes.map Nat.toUInt8).toArray⟩, rest)

/-- Handle and suffix of a tag from its mark on, and what follows it. -/
def tag? (gs : List Glyph) : Option (String × String × List Glyph) :=
  if atAny ['<'] (gs.drop 1) then do
    let (suffix, rest) ← uri? true (gs.drop 2)
    if suffix.isEmpty then none
    match rest with
    | g :: rest => if g.char = '>' then some ("", suffix, rest) else none
    | [] => none
  else do
    let (handle, rest) := tagHandle gs
    let (suffix, rest) ← uri? false rest
    if handle.length > 1 && handle.endsWith "!" then
      if suffix.isEmpty then none else some (handle, suffix, rest)
    else
      let suffix := (handle.drop 1).toString ++ suffix
      if suffix.isEmpty then some ("", "!", rest) else some ("!", suffix, rest)

/-- A number of at most nine digits and what follows it. -/
def versionNumber? (gs : List Glyph) : Option (Nat × List Glyph) :=
  let digits := gs.takeWhile (·.char.isDigit)
  if digits.isEmpty || 9 < digits.length then none
  else some (Json.natOfDigits (digits.map (·.char)), gs.dropWhile (·.char.isDigit))

/-- A directive behind its mark, and the lines after it. -/
def directive? (gs : List Glyph) : Option (Token × List Glyph) := do
  let rest := gs.dropWhile isWord
  if !atSpace rest then none
  let rest' := rest.dropWhile Glyph.isBlank
  let (t, rest) ← match textOf (gs.takeWhile isWord) with
    | "YAML" => do
      let (major, rest) ← versionNumber? rest'
      if !atAny ['.'] rest then none
      let (minor, rest) ← versionNumber? (rest.drop 1)
      pure (Token.version major minor, rest)
    | "TAG" => do
      let (handle, rest) := tagHandle rest'
      if !(handle.startsWith "!" && handle.endsWith "!") then none
      if !rest.head?.any Glyph.isBlank then none
      let (uri, rest) ← uri? true (rest.dropWhile Glyph.isBlank)
      if uri.isEmpty || !atSpace rest then none
      pure (Token.tagHandle handle uri, rest)
    | _ => none
  return (t, ← restOfLine? rest)

/-- Characters that cannot begin a plain scalar. -/
def indicators : List Char :=
  ['-', '?', ':', ',', '[', ']', '{', '}', '#', '&', '*', '!', '|', '>', '\'', '"', '%', '@', '\x60']

/-- Whether a plain scalar can begin with a glyph, with another text behind it. -/
def beginsPlain (flow : Bool) (g : Glyph) (rest : List Glyph) : Bool :=
  !(g.isSpace || indicators.contains g.char) || (g.char = '-' && !atSpace rest) ||
    (!flow && (g.char = '?' || g.char = ':') && !atSpace rest)

namespace Scanner

/-- Reads the token that begins with a glyph. -/
def read (s : Scanner) (g : Glyph) (rest : List Glyph) : Option (Scanner × List Glyph) := do
  if g.column = 0 && g.char = '%' then
    let (t, rest) ← directive? rest
    return (← s.atDocument t, rest)
  else if atRule '-' (g :: rest) then return (← s.atDocument .documentStart, rest.drop 2)
  else if atRule '.' (g :: rest) then return (← s.atDocument .documentEnd, rest.drop 2)
  else if g.char = '{' then return (← s.openFlow g, rest)
  else if g.char = '}' then return (← s.closeFlow, rest)
  else if g.char = ',' then return (((← s.forget).allowKey true).push .flowEntry, rest)
  else if g.char = '-' && atSpace rest then none
  else if g.char = '?' && (s.inFlow || atSpace rest) then return (← s.markKey g, rest)
  else if g.char = ':' && (s.inFlow || atSpace rest) then return (← s.markValue g, rest)
  else if g.char = '*' then
    let (name, rest) ← anchorName? rest
    return (← s.pushNode g (.alias name), rest)
  else if g.char = '&' then
    let (name, rest) ← anchorName? rest
    return (← s.pushNode g (.anchor name), rest)
  else if g.char = '!' then
    let (handle, suffix, rest) ← tag? (g :: rest)
    if atSpace rest || (s.inFlow && atAny [','] rest) then
      return (← s.pushNode g (.tag handle suffix), rest)
    else none
  else if (g.char = '|' || g.char = '>') && !s.inFlow then
    let s ← s.forget
    let (text, rest) ← blockScalar (g.char = '>') s.indent rest
    return ((s.allowKey true).push (.scalar text (if g.char = '>' then .folded else .literal)), rest)
  else if g.char = '\'' then
    let (text, rest) ← singleQuoted [] .none rest
    return (← s.pushNode g (.scalar text .quoted), rest)
  else if g.char = '"' then
    let (text, rest) ← doubleQuoted [] .none rest
    return (← s.pushNode g (.scalar text .quoted), rest)
  else if beginsPlain s.inFlow g rest then
    let (text, broken, rest) ← plainScalar s.inFlow (s.indent + 1) [] .none (g :: rest)
    let s ← s.pushNode g (.scalar text .plain)
    return (s.allowKey broken, rest)
  else none

/-- Skips white space and comments: whether a key may follow, and the rest. Tabs do not indent. -/
def skipSpace (flow keyAllowed comment : Bool) : List Glyph → Bool × List Glyph
  | [] => (keyAllowed, [])
  | g :: rest =>
    if g.isBreak then skipSpace flow (keyAllowed || !flow) false rest
    else if comment then skipSpace flow keyAllowed true rest
    else if g.char = '#' then skipSpace flow keyAllowed true rest
    else if g.char = ' ' || (g.char = '\t' && (flow || !keyAllowed)) ||
        (g.char = '\ufeff' && g.index = 0) then
      skipSpace flow keyAllowed false rest
    else (keyAllowed, g :: rest)

/-- Reads all tokens, at most `fuel` of them. -/
def run : Nat → Scanner → List Glyph → Option (List Token)
  | 0, _, _ => none
  | fuel + 1, s, gs => do
    let (keyAllowed, gs) := skipSpace s.inFlow s.keyAllowed false gs
    let s := s.allowKey keyAllowed
    match gs with
    | [] => return (← (s.endBlocks (-1)).forget).tokens.reverse
    | g :: rest =>
      let s ← s.forgetStale g
      let (s, rest) ← (s.endBlocks g.column).read g rest
      run fuel s rest

end Scanner

/-- Tokens of a text. -/
def tokens? (text : String) : Option (List Token) := do
  let gs ← Glyph.ofText? text
  Scanner.run (gs.length + 1) {} gs

end SinkReach.Yaml
