import SinkReach.Json.Basic
import SinkReach.Ieee.Decimal

/-!
Writing JSON, on one line without blanks or indented by two blanks a level.
-/
namespace SinkReach.Json

def hexChar (n : Nat) : Char := if n < 10 then Char.ofNat (48 + n) else Char.ofNat (87 + n)

/-- Written form of a character inside quotes: quotes, backslashes and control characters are
escaped, by a letter where there is one. -/
def quotedChar (c : Char) : String :=
  if c = '"' then "\\\"" else if c = '\\' then "\\\\"
  else if c = '\x08' then "\\b" else if c = '\x0c' then "\\f"
  else if c = '\n' then "\\n" else if c = '\r' then "\\r" else if c = '\t' then "\\t"
  else if c.toNat < 0x20 then
    "\\u00" ++ String.singleton (hexChar (c.toNat / 16)) ++ String.singleton (hexChar (c.toNat % 16))
  else String.singleton c

def quoted (s : String) : String :=
  s.toList.foldl (fun acc c => acc ++ quotedChar c) "\"" ++ "\""

/-- Text of a double; one that is not finite has none and is written as null. -/
def floatText (bits : Nat) : String :=
  if Precision.double.isNaN bits || Precision.double.isInfinite bits then "null"
  else Precision.double.textWith Decimal.scientific bits

def atomText : Json → String
  | null | unreadable => "null"
  | bool b => if b then "true" else "false"
  | int n => toString n
  | float bits => floatText bits
  | str s => quoted s
  | arr _ => "[]"
  | obj _ => "\x7b\x7d"

mutual

def compress : Json → String
  | arr items => "[" ++ compressItems items ++ "]"
  | obj members => "\x7b" ++ compressMembers members ++ "\x7d"
  | j => j.atomText

def compressItems : List Json → String
  | [] => ""
  | [j] => j.compress
  | j :: js => j.compress ++ "," ++ compressItems js

def compressMembers : List (String × Json) → String
  | [] => ""
  | [(k, j)] => quoted k ++ ":" ++ j.compress
  | (k, j) :: ms => quoted k ++ ":" ++ j.compress ++ "," ++ compressMembers ms

end

/-- A new line indented to a level. -/
def newline (level : Nat) : String := "\n" ++ String.ofList (List.replicate (2 * level) ' ')

mutual

def prettyAt (level : Nat) : Json → String
  | arr [] => "[]"
  | arr items => "[" ++ prettyItems (level + 1) items ++ newline level ++ "]"
  | obj [] => "\x7b\x7d"
  | obj members => "\x7b" ++ prettyMembers (level + 1) members ++ newline level ++ "\x7d"
  | j => j.atomText

def prettyItems (level : Nat) : List Json → String
  | [] => ""
  | [j] => newline level ++ prettyAt level j
  | j :: js => newline level ++ prettyAt level j ++ "," ++ prettyItems level js

def prettyMembers (level : Nat) : List (String × Json) → String
  | [] => ""
  | [(k, j)] => newline level ++ quoted k ++ ": " ++ prettyAt level j
  | (k, j) :: ms =>
    newline level ++ quoted k ++ ": " ++ prettyAt level j ++ "," ++ prettyMembers level ms

end

def pretty (j : Json) : String := prettyAt 0 j

end SinkReach.Json
