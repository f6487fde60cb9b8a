/-!
Characters of a YAML text with their places. A line break of two characters is one glyph, and breaks
that YAML does not tell apart are one character; columns count characters from zero.
-/
namespace SinkReach.Yaml

/-- Characters that a text may hold at all. -/
def isAllowed (c : Char) : Bool :=
  let n := c.toNat
  n = 0x09 || n = 0x0A || n = 0x0D || (0x20 ≤ n && n ≤ 0x7E) || n = 0x85 ||
    (0xA0 ≤ n && n ≤ 0xFFFD) || 0x10000 ≤ n

/-- White space inside a line. -/
def isBlank (c : Char) : Bool := c = ' ' || c = '\t'

/-- Ends of a line: carriage return, line feed, next line, line and paragraph separator. -/
def isBreak (c : Char) : Bool :=
  c = '\n' || c = '\r' || c = '\u0085' || c = '\u2028' || c = '\u2029'

/-- Line breaks are line feeds, separators apart. -/
def normalBreak (c : Char) : Char := if c = '\r' || c = '\u0085' then '\n' else c

/-- A character and its place. -/
structure Glyph where
  char : Char
  index : Nat
  line : Nat
  column : Nat
deriving DecidableEq, Repr, Inhabited

namespace Glyph

def isBlank (g : Glyph) : Bool := Yaml.isBlank g.char

def isBreak (g : Glyph) : Bool := Yaml.isBreak g.char

def isSpace (g : Glyph) : Bool := g.isBlank || g.isBreak

/-- Glyphs of characters from a place on. -/
def place (index line column : Nat) : List Char → List Glyph
  | [] => []
  | '\r' :: '\n' :: cs => ⟨'\n', index, line, column⟩ :: place (index + 2) (line + 1) 0 cs
  | c :: cs =>
    if Yaml.isBreak c then ⟨normalBreak c, index, line, column⟩ :: place (index + 1) (line + 1) 0 cs
    else ⟨c, index, line, column⟩ :: place (index + 1) line (column + 1) cs

/-- Glyphs of a text without forbidden characters. -/
def ofText? (text : String) : Option (List Glyph) :=
  if text.toList.all isAllowed then some (place 0 0 0 text.toList) else none

end Glyph

/-- Whether white space or the end comes next. -/
def atSpace : List Glyph → Bool
  | [] => true
  | g :: _ => g.isSpace

/-- Whether the next glyph is one of the characters. -/
def atAny (cs : List Char) : List Glyph → Bool
  | [] => false
  | g :: _ => cs.contains g.char

/-- Whether a line begins with three of a character and nothing attached to them. -/
def atRule (c : Char) : List Glyph → Bool
  | x :: y :: z :: rest =>
    x.column = 0 && x.char = c && y.char = c && z.char = c && atSpace rest
  | _ => false

/-- Whether a document starts or ends here by its mark. -/
def atDocumentMark (gs : List Glyph) : Bool := atRule '-' gs || atRule '.' gs

def textOf (gs : List Glyph) : String := String.ofList (gs.map (·.char))

end SinkReach.Yaml
