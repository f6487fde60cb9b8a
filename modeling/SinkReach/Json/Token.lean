import SinkReach.Json.Number

/-!
Tokens of JSON text. A text in quotes is read in two steps: its code units, and the characters that they
spell if every surrogate among them is half of a pair.
-/
namespace SinkReach.Json

inductive Token where
  | openArray
  | closeArray
  | openObject
  | closeObject
  | comma
  | colon
  /-- Text in quotes; none if it has a surrogate without its other half. -/
  | text (value : Option String)
  /-- Number, truth value or null. -/
  | atom (value : Json)

/-- The four blanks that may stand between tokens. -/
def isBlank (c : Char) : Bool := c = ' ' || c = '\n' || c = '\t' || c = '\r'

def hexDigit? (c : Char) : Option Nat :=
  if '0' ≤ c ∧ c ≤ '9' then some (c.toNat - 48)
  else if 'a' ≤ c ∧ c ≤ 'f' then some (c.toNat - 87)
  else if 'A' ≤ c ∧ c ≤ 'F' then some (c.toNat - 55)
  else none

/-- Value of four hexadecimal digits. -/
def hex4? (a b c d : Char) : Option Nat := do
  return ((← hexDigit? a) * 16 + (← hexDigit? b)) * 256 + (← hexDigit? c) * 16 + (← hexDigit? d)

/-- Character of a single-letter escape. -/
def escape? : Char → Option Char
  | '"' => some '"'
  | '\\' => some '\\'
  | '/' => some '/'
  | 'b' => some '\x08'
  | 'f' => some '\x0c'
  | 'n' => some '\n'
  | 'r' => some '\r'
  | 't' => some '\t'
  | _ => none

def isHighSurrogate (n : Nat) : Bool := 0xD800 ≤ n && n < 0xDC00

def isLowSurrogate (n : Nat) : Bool := 0xDC00 ≤ n && n < 0xE000

/-- Code units up to the closing quote, those read so far given the latest first, and what follows. -/
def units? (read : List Nat) : List Char → Option (List Nat × List Char)
  | [] => none
  | '"' :: rest => some (read.reverse, rest)
  | '\\' :: 'u' :: a :: b :: c :: d :: rest =>
    match hex4? a b c d with
    | some n => units? (n :: read) rest
    | none => none
  | '\\' :: c :: rest =>
    match escape? c with
    | some c => units? (c.toNat :: read) rest
    | none => none
  | c :: rest => if c = '\\' ∨ c.toNat < 0x20 then none else units? (c.toNat :: read) rest

/-- Characters that code units spell, after those given the latest first. -/
def spelled? (read : List Char) : List Nat → Option (List Char)
  | [] => some read.reverse
  | [n] => if isHighSurrogate n || isLowSurrogate n then none else some (Char.ofNat n :: read).reverse
  | n :: m :: ns =>
    if isHighSurrogate n then
      if isLowSurrogate m then
        spelled? (Char.ofNat (0x10000 + (n - 0xD800) * 0x400 + (m - 0xDC00)) :: read) ns
      else none
    else if isLowSurrogate n then none
    else spelled? (Char.ofNat n :: read) (m :: ns)

/-- The token at the start of a text that is not blank there, and what follows it. -/
def token? : List Char → Option (Token × List Char)
  | '[' :: rest => some (.openArray, rest)
  | ']' :: rest => some (.closeArray, rest)
  | '\x7b' :: rest => some (.openObject, rest)
  | '\x7d' :: rest => some (.closeObject, rest)
  | ',' :: rest => some (.comma, rest)
  | ':' :: rest => some (.colon, rest)
  | '"' :: rest =>
    (units? [] rest).map fun (units, rest) => (.text ((spelled? [] units).map String.ofList), rest)
  | 'n' :: 'u' :: 'l' :: 'l' :: rest => some (.atom null, rest)
  | 't' :: 'r' :: 'u' :: 'e' :: rest => some (.atom (bool true), rest)
  | 'f' :: 'a' :: 'l' :: 's' :: 'e' :: rest => some (.atom (bool false), rest)
  | cs => (number? cs).map fun (j, rest) => (.atom j, rest)

/-- Tokens of at most `fuel` characters, after those given the latest first. -/
def tokensFrom? : Nat → List Token → List Char → Option (List Token)
  | _, read, [] => some read.reverse
  | 0, _, _ :: _ => none
  | fuel + 1, read, c :: cs =>
    if isBlank c then tokensFrom? fuel read cs
    else match token? (c :: cs) with
      | some (t, rest) => tokensFrom? fuel (t :: read) rest
      | none => none

/-- Tokens of a text, none of which is empty. -/
def tokens? (text : String) : Option (List Token) :=
  let cs := text.toList
  tokensFrom? cs.length [] cs

end SinkReach.Json
