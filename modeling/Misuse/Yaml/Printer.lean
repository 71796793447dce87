import Misuse.Yaml.Style

/-!
# Writing YAML

Block style, two columns a level. The items of a list that is a field stand in the column
of its name. An alias is named by the number of its slot. Nothing is folded, so a line of
text stays one line. The style of a scalar has to hold its text, as the one that `ofText`
chooses does.
-/

namespace Misuse.Yaml

def spaces (n : Nat) : List Char := List.replicate n ' '

/-! ## Scalars -/

/-- Quotes are doubled. After line ends the text goes on in the column; a line feed that
follows no other line end is written twice. -/
def singleFrom (column : Nat) (afterBreak : Bool) : List Char → List Char
  | [] => if afterBreak then spaces column else []
  | c :: r =>
    if isBreak c then
      (if c == '\n' && !afterBreak then ['\n'] else []) ++ c :: singleFrom column true r
    else
      (if afterBreak then spaces column else []) ++ (if c == '\'' then ['\''] else [])
        ++ c :: singleFrom column false r

def hexDigits (width n : Nat) : List Char :=
  let ds := (Nat.toDigits 16 n).map Char.toUpper
  List.replicate (width - ds.length) '0' ++ ds

/-- The letters that stand for characters after a backslash. -/
def escapeLetters : List (Char × Char) :=
  [('\x00', '0'), ('\x07', 'a'), ('\x08', 'b'), ('\t', 't'), ('\n', 'n'), ('\x0b', 'v'),
   ('\x0c', 'f'), ('\r', 'r'), ('\x1b', 'e'), ('"', '"'), ('\\', '\\'), ('\u0085', 'N'),
   ('\u00a0', '_'), ('\u2028', 'L'), ('\u2029', 'P')]

def doubleChar (c : Char) : List Char :=
  if isPrintable c && !isBreak c && c != '"' && c != '\\' then [c]
  else
    match escapeLetters.find? fun e => e.1 == c with
    | some (_, letter) => ['\\', letter]
    | none =>
      let n := c.toNat
      if n ≤ 0xFF then '\\' :: 'x' :: hexDigits 2 n
      else if n ≤ 0xFFFF then '\\' :: 'u' :: hexDigits 4 n
      else '\\' :: 'U' :: hexDigits 8 n

/-- The column is spelled out for a block that begins with a space or a line end. -/
def literalHint (s : List Char) : List Char :=
  if s.head?.any fun c => isSpace c || isBreak c then ['2'] else []

/-- What becomes of the line ends that end a block: none, the last alone, or all kept. -/
def literalChomp (s : List Char) : List Char :=
  match s.reverse with
  | [] => ['-']
  | a :: r =>
    if isBreak a then (if r.isEmpty || r.head?.any isBreak then ['+'] else [])
    else ['-']

def literalFrom (column : Nat) (afterBreak : Bool) : List Char → List Char
  | [] => []
  | c :: r =>
    if isBreak c then c :: literalFrom column true r
    else (if afterBreak then spaces column else []) ++ c :: literalFrom column false r

def literalLines (column : Nat) (s : List Char) : List Char :=
  literalFrom column true s ++ if s.getLast?.any isBreak then [] else ['\n']

/-- A scalar with the end of its line; further lines stand in the column. A folded text is
written in double quotes. -/
def Scalar.line (column : Nat) (s : Scalar) : List Char :=
  let cs := s.text.toList
  let tag := match s.tag with
    | none => []
    | some t => '!' :: '<' :: t.toList ++ ['>', ' ']
  tag ++ match s.style with
  | .plain => cs ++ ['\n']
  | .single => '\'' :: singleFrom column false cs ++ ['\'', '\n']
  | .double | .folded => '"' :: cs.flatMap doubleChar ++ ['"', '\n']
  | .literal => '|' :: literalHint cs ++ literalChomp cs ++ '\n' :: literalLines column cs

/-! ## Trees -/

/-- A key that is written in front of its colon. -/
def simpleKey? : Yaml → Option (List Char)
  | .scalar s =>
    let line := s.line 0
    if (line.filter isBreak).length = 1 then some line.dropLast else none
  | _ => none

mutual

/-- A tree that begins in the middle of a line; further lines stand in the column. -/
def block (column : Nat) : Yaml → List Char
  | .scalar s => s.line column
  | .alias slot => '*' :: (Nat.repr slot).toList ++ ['\n']
  | .list [] => "[]\n".toList
  | .list (y :: ys) => '-' :: ' ' :: block (column + 2) y ++ blockItems column ys
  | .record [] => "\x7b\x7d\n".toList
  | .record (f :: fs) => blockField column f ++ blockFields column fs

def blockItems (column : Nat) : List Yaml → List Char
  | [] => []
  | y :: ys =>
    spaces column ++ '-' :: ' ' :: block (column + 2) y ++ blockItems column ys

def blockFields (column : Nat) : List (Yaml × Yaml) → List Char
  | [] => []
  | f :: fs => spaces column ++ blockField column f ++ blockFields column fs

def blockField (column : Nat) : Yaml × Yaml → List Char
  | (key, y) =>
    match simpleKey? key with
    | some name => name ++ ':' :: blockValue column y
    | none =>
      '?' :: ' ' :: block (column + 2) key
        ++ spaces column ++ ':' :: ' ' :: block (column + 2) y

/-- The value of a field: behind the colon, or on lines of its own. -/
def blockValue (column : Nat) : Yaml → List Char
  | .list (y :: ys) =>
    '\n' :: spaces column ++ '-' :: ' ' :: block (column + 2) y ++ blockItems column ys
  | .record (f :: fs) =>
    '\n' :: spaces (column + 2) ++ blockField (column + 2) f ++ blockFields (column + 2) fs
  | y => ' ' :: block (column + 2) y

end

def write (y : Yaml) : String := String.ofList (block 0 y)

end Misuse.Yaml
