import SinkReach.Json.Token
import SinkReach.Yaml.Glyph

/-!
Scalars of YAML. A line break between two lines of a plain or quoted scalar reads as a blank, further
ones as themselves; the lines of a block scalar keep their breaks unless it is folded.
-/
namespace SinkReach.Yaml

inductive Style where
  | plain
  | quoted
  | literal
  | folded
deriving DecidableEq, Repr, Inhabited

/-- White space inside a scalar whose meaning depends on what follows. -/
inductive Gap where
  | none
  /-- Blanks, the latest first. -/
  | blanks (chars : List Char)
  /-- The first line break unless it was escaped, and the others, the latest first. -/
  | breaks (first : Option Char) (others : List Char)
deriving DecidableEq, Repr, Inhabited

namespace Gap

/-- Blanks beside a line break do not count. -/
def add (gap : Gap) (c : Char) : Gap :=
  match gap with
  | none => if isBreak c then breaks c [] else blanks [c]
  | blanks cs => if isBreak c then breaks c [] else blanks (c :: cs)
  | breaks first others => if isBreak c then breaks first (c :: others) else breaks first others

def isBroken : Gap → Bool
  | breaks _ _ => true
  | _ => false

/-- Adds what the gap reads as to the characters before it, the latest first. -/
def fill (gap : Gap) (read : List Char) : List Char :=
  match gap with
  | none => read
  | blanks cs => cs ++ read
  | breaks (some '\n') [] => ' ' :: read
  | breaks (some '\n') others => others ++ read
  | breaks (some c) others => others ++ c :: read
  | breaks Option.none others => others ++ read

end Gap

/-- Text in single quotes behind the first one; a quote in it is written twice. -/
def singleQuoted (read : List Char) (gap : Gap) : List Glyph → Option (String × List Glyph)
  | [] => none
  | g :: rest =>
    if g.isSpace then singleQuoted read (gap.add g.char) rest
    else if atDocumentMark (g :: rest) then none
    else if g.char = '\'' then
      match rest with
      | [] => some (String.ofList (gap.fill read).reverse, [])
      | q :: more =>
        if q.char = '\'' then singleQuoted ('\'' :: gap.fill read) .none more
        else some (String.ofList (gap.fill read).reverse, q :: more)
    else singleQuoted (g.char :: gap.fill read) .none rest

/-- What a single character behind a backslash stands for. -/
def escapes : List (Char × Char) :=
  [('0', '\x00'), ('a', '\x07'), ('b', '\x08'), ('t', '\t'), ('\t', '\t'), ('n', '\n'), ('v', '\x0b'),
    ('f', '\x0c'), ('r', '\r'), ('e', '\x1b'), (' ', ' '), ('"', '"'), ('/', '/'), ('\\', '\\'),
    ('N', '\u0085'), ('_', '\u00a0'), ('L', '\u2028'), ('P', '\u2029')]

/-- The character of a hexadecimal code. -/
def codeChar? (digits : List Glyph) : Option Char := do
  let n ← digits.foldlM (fun n g => do return n * 16 + (← Json.hexDigit? g.char)) 0
  if Json.isHighSurrogate n || Json.isLowSurrogate n || 0x10FFFF < n then none
  return Char.ofNat n

/-- Text in double quotes behind the first one; a backslash escapes a character or a line break. -/
def doubleQuoted (read : List Char) (gap : Gap) : List Glyph → Option (String × List Glyph)
  | [] => none
  | g :: rest =>
    if g.isSpace then doubleQuoted read (gap.add g.char) rest
    else if atDocumentMark (g :: rest) then none
    else if g.char = '"' then some (String.ofList (gap.fill read).reverse, rest)
    else if g.char = '\\' then
      match rest with
      | [] => none
      | e :: rest =>
        if e.isBreak then doubleQuoted (gap.fill read) (.breaks none []) rest
        else match escapes.lookup e.char with
          | some c => doubleQuoted (c :: gap.fill read) .none rest
          | none =>
            match e.char, rest with
            | 'x', a :: b :: rest => do
              let c ← codeChar? [a, b]
              doubleQuoted (c :: gap.fill read) .none rest
            | 'u', a :: b :: c :: d :: rest => do
              let c ← codeChar? [a, b, c, d]
              doubleQuoted (c :: gap.fill read) .none rest
            | 'U', a :: b :: c :: d :: a' :: b' :: c' :: d' :: rest => do
              let c ← codeChar? [a, b, c, d, a', b', c', d']
              doubleQuoted (c :: gap.fill read) .none rest
            | _, _ => none
    else doubleQuoted (g.char :: gap.fill read) .none rest

/-- Characters that end a plain scalar between braces. -/
def flowMarks : List Char := [',', '[', ']', '{', '}']

/-- Whether a plain scalar ends before this text, wherever that stands. -/
def endsPlain (flow : Bool) : List Glyph → Bool
  | [] => true
  | g :: rest => (g.char = ':' && atSpace rest) || (flow && flowMarks.contains g.char)

/-- A plain scalar: its text, whether a line break follows it, and what follows. Its lines are indented
by at least `indent`, in blocks. -/
def plainScalar (flow : Bool) (indent : Int) (read : List Char) (gap : Gap) :
    List Glyph → Option (String × Bool × List Glyph)
  | [] => some (String.ofList read.reverse, gap.isBroken, [])
  | g :: rest =>
    if g.isSpace then
      if gap.isBroken && g.char = '\t' && (g.column : Int) < indent then none
      else plainScalar flow indent read (gap.add g.char) rest
    else if gap ≠ .none && ((!flow && (g.column : Int) < indent) || atDocumentMark (g :: rest) ||
        g.char = '#') then
      some (String.ofList read.reverse, gap.isBroken, g :: rest)
    else if flow && g.char = ':' && atAny ('?' :: flowMarks) rest then none
    else if endsPlain flow (g :: rest) then
      some (String.ofList read.reverse, gap.isBroken, g :: rest)
    else plainScalar flow indent (g.char :: gap.fill read) .none rest

/-- How a block scalar treats the line breaks at its end. -/
inductive Chomping where
  | strip
  | clip
  | keep
deriving DecidableEq, Repr, Inhabited

/-- A mark of chomping, if there is one. -/
def chomping? : List Glyph → Option Chomping × List Glyph
  | g :: rest =>
    if g.char = '+' then (some .keep, rest) else if g.char = '-' then (some .strip, rest)
    else (none, g :: rest)
  | [] => (none, [])

/-- A digit, if there is one. -/
def digit? : List Glyph → Option Nat × List Glyph
  | g :: rest => if g.char.isDigit then (some (g.char.toNat - 48), rest) else (none, g :: rest)
  | [] => (none, [])

/-- Chomping and indentation in either order; an indentation is not zero. -/
def blockHeader? (gs : List Glyph) : Option (Chomping × Option Nat × List Glyph) := do
  let (chomping, gs) := chomping? gs
  let (width, gs) := digit? gs
  let (chomping, gs) := if chomping.isSome then (chomping, gs) else chomping? gs
  if width = some 0 then none
  return (chomping.getD .clip, width, gs)

/-- Rest of a line that holds no more than a comment, up to the line after it. -/
def restOfLine? (gs : List Glyph) : Option (List Glyph) :=
  let gs := gs.dropWhile Glyph.isBlank
  let gs := if atAny ['#'] gs then gs.dropWhile (!·.isBreak) else gs
  match gs with
  | [] => some []
  | g :: rest => if g.isBreak then some rest else none

/-- Empty lines and the indentation of the next line of a block scalar. -/
structure Margin where
  /-- Line breaks, the latest first. -/
  breaks : List Char
  /-- Greatest indentation met. -/
  deepest : Nat
  rest : List Glyph

/-- Skips empty lines and at most `indent` blanks, any number of them if it is not known. -/
def margin? (indent : Option Int) (breaks : List Char) (deepest : Nat) : List Glyph → Option Margin
  | [] => some ⟨breaks, deepest, []⟩
  | g :: rest =>
    let inside := indent.all fun n => (g.column : Int) < n
    if inside && g.char = ' ' then margin? indent breaks deepest rest
    else if inside && g.char = '\t' then none
    else if g.isBreak then margin? indent (g.char :: breaks) (max deepest g.column) rest
    else some ⟨breaks, max deepest g.column, g :: rest⟩

/-- Lines of a block scalar read so far. -/
structure BlockText where
  /-- Characters, the latest first. -/
  read : List Char := []
  /-- Break of the last line. -/
  lastBreak : Option Char := none
  /-- Breaks of the empty lines behind it, the latest first. -/
  others : List Char := []
  /-- Whether the last line began with a blank. -/
  blank : Bool := false

/-- Text before a next line, which begins with a blank or not. -/
def BlockText.beforeLine (b : BlockText) (folds blank : Bool) : List Char :=
  if folds && b.lastBreak = some '\n' && !b.blank && !blank then
    if b.others.isEmpty then ' ' :: b.read else b.others ++ b.read
  else b.others ++ b.lastBreak.toList ++ b.read

/-- Lines of a block scalar at an indentation, at most `fuel` of them. -/
def blockLines? (folds : Bool) (indent : Int) : Nat → BlockText → List Glyph →
    Option (BlockText × List Glyph)
  | 0, _, _ => none
  | _ + 1, b, [] => some (b, [])
  | fuel + 1, b, g :: rest =>
    if (g.column : Int) ≠ indent then some (b, g :: rest)
    else do
      let line := (g :: rest).takeWhile (!·.isBreak)
      let rest := (g :: rest).dropWhile (!·.isBreak)
      let m ← margin? (some indent) [] 0 (rest.drop 1)
      blockLines? folds indent fuel {
        read := (line.map (·.char)).reverse ++ b.beforeLine folds g.isBlank
        lastBreak := rest.head?.map (·.char)
        others := m.breaks
        blank := g.isBlank } m.rest

/-- A block scalar behind its first mark, inside a block of some indentation. -/
def blockScalar (folds : Bool) (parent : Int) (gs : List Glyph) : Option (String × List Glyph) := do
  let (chomping, width, gs) ← blockHeader? gs
  let gs ← restOfLine? gs
  let given : Option Int := width.map fun n => if 0 ≤ parent then parent + n else n
  let m ← margin? given [] 0 gs
  let indent := given.getD (max m.deepest (max (parent + 1) 1))
  let (b, rest) ← blockLines? folds indent (gs.length + 1) { others := m.breaks } m.rest
  let ending := match chomping with
    | .strip => []
    | .clip => b.lastBreak.toList
    | .keep => b.others ++ b.lastBreak.toList
  return (String.ofList (ending ++ b.read).reverse, rest)

end SinkReach.Yaml
