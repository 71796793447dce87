import Misuse.Json.Basic

/-!
# Writing JSON text

`compact` writes a value on one line without blanks, `pretty` one item a line, indented by
two blanks a level; an empty list or record stays on its line. Both escape the same
characters: the quote, the backslash and the controls below U+0020.
-/

namespace Misuse.Json

def hexChar (n : Nat) : Char :=
  if n < 10 then Char.ofNat ('0'.toNat + n) else Char.ofNat ('a'.toNat + (n - 10))

def escapeChar (c : Char) : List Char :=
  if c = '"' then ['\\', '"']
  else if c = '\\' then ['\\', '\\']
  else if c = '\x08' then ['\\', 'b']
  else if c = '\x0c' then ['\\', 'f']
  else if c = '\n' then ['\\', 'n']
  else if c = '\r' then ['\\', 'r']
  else if c = '\t' then ['\\', 't']
  else if c.toNat < 0x20 then
    ['\\', 'u', '0', '0', hexChar (c.toNat / 16), hexChar (c.toNat % 16)]
  else [c]

def quoted (s : String) : String :=
  "\"" ++ String.ofList (s.toList.flatMap escapeChar) ++ "\""

def scalarText : Json → String
  | .null => "null"
  | .bool b => if b then "true" else "false"
  | .int n => toString n
  | .decimal s => s
  | .text s => quoted s
  | _ => ""

mutual

def compact : Json → String
  | .list items => "[" ++ compactItems items ++ "]"
  | .record fields => "\x7b" ++ compactFields fields ++ "\x7d"
  | j => scalarText j

def compactItems : List Json → String
  | [] => ""
  | [j] => compact j
  | j :: k :: js => compact j ++ "," ++ compactItems (k :: js)

def compactFields : List (String × Json) → String
  | [] => ""
  | [(name, j)] => quoted name ++ ":" ++ compact j
  | (name, j) :: f :: fs => quoted name ++ ":" ++ compact j ++ "," ++ compactFields (f :: fs)

end

def margin (level : Nat) : String := String.ofList (List.replicate (2 * level) ' ')

mutual

def prettyAt (level : Nat) : Json → String
  | .list [] => "[]"
  | .list (j :: js) => "[\n" ++ prettyItems (level + 1) (j :: js) ++ "\n" ++ margin level ++ "]"
  | .record [] => "\x7b\x7d"
  | .record (f :: fs) =>
    "\x7b\n" ++ prettyFields (level + 1) (f :: fs) ++ "\n" ++ margin level ++ "\x7d"
  | j => scalarText j

def prettyItems (level : Nat) : List Json → String
  | [] => ""
  | [j] => margin level ++ prettyAt level j
  | j :: k :: js => margin level ++ prettyAt level j ++ ",\n" ++ prettyItems level (k :: js)

def prettyFields (level : Nat) : List (String × Json) → String
  | [] => ""
  | [(name, j)] => margin level ++ quoted name ++ ": " ++ prettyAt level j
  | (name, j) :: f :: fs =>
    margin level ++ quoted name ++ ": " ++ prettyAt level j ++ ",\n" ++ prettyFields level (f :: fs)

end

def pretty (j : Json) : String := prettyAt 0 j

end Misuse.Json
