import Misuse.Yaml.Basic

/-!
# Places in a text

What is left of a text, and where it begins: how many bytes are behind, on which line, in
which column. Columns count characters, and bytes are those of UTF-8.
-/

namespace Misuse.Yaml

structure Cursor where
  rest : List Char
  offset : Nat
  line : Nat
  column : Nat
  deriving Repr, Inhabited

/-- All kinds of line ends that are not kept become line feeds. -/
def normalBreaks : List Char → List Char
  | [] => []
  | '\r' :: '\n' :: r => '\n' :: normalBreaks r
  | '\r' :: r => '\n' :: normalBreaks r
  | c :: r => (if c = '\u0085' then '\n' else c) :: normalBreaks r

/-- Characters that may occur in a document. -/
def isAllowed (c : Char) : Bool :=
  let n := c.toNat
  c == '\t' || c == '\n' || c == '\r' || (decide (0x20 ≤ n) && decide (n ≤ 0x7E)) || n == 0x85
    || (decide (0xA0 ≤ n) && decide (n ≤ 0xFFFD)) || decide (0x10000 ≤ n)

namespace Cursor

def start (s : List Char) : Cursor := ⟨normalBreaks s, 0, 0, 0⟩

/-- Past one character. -/
def next (c : Cursor) : Cursor :=
  match c.rest with
  | [] => c
  | a :: r =>
    if isBreak a then ⟨r, c.offset + a.utf8Size, c.line + 1, 0⟩
    else ⟨r, c.offset + a.utf8Size, c.line, c.column + 1⟩

def skip (c : Cursor) : Nat → Cursor
  | 0 => c
  | n + 1 => c.next.skip n

/-- Past the characters of one kind, which are handed out. No line end is among them. -/
def takeWhile (c : Cursor) (p : Char → Bool) : List Char × Cursor :=
  let taken := c.rest.takeWhile fun a => p a && !isBreak a
  (taken, c.skip taken.length)

/-- A gap, a line end or the end of the text comes next. -/
def atWordEnd (c : Cursor) : Bool :=
  match c.rest with
  | [] => true
  | a :: _ => isGap a || isBreak a

def atLineEnd (c : Cursor) : Bool :=
  match c.rest with
  | [] => true
  | a :: _ => isBreak a

/-- Three characters that stand alone at the beginning of a line. -/
def atMark (c : Cursor) (mark : String) : Bool :=
  c.column == 0 && mark.toList.isPrefixOf c.rest && (c.skip mark.length).atWordEnd

def atDocumentMark (c : Cursor) : Bool := c.atMark "---" || c.atMark "..."

/-- To the end of the line, if nothing but a comment comes before it. -/
def blankLine? (c : Cursor) : Option Cursor :=
  let c := (c.takeWhile isGap).2
  let c := if c.rest.head? = some '#' then (c.takeWhile fun _ => true).2 else c
  if c.atLineEnd then some c.next else none

end Cursor

end Misuse.Yaml
