import Misuse.Yaml.Cursor
import Misuse.Yaml.Number

/-!
# Lexing scalars

Within a scalar, a single line end between two lines counts as a space, and of several the
first is dropped (`Fold.text`). Each scanner takes as fuel the number of characters
that are left, hands out the text and the place after it, and fails on what is not a
scalar.
-/

namespace Misuse.Yaml

/-- The gap between two pieces of a scalar: its spaces, or else its line ends. -/
structure Fold where
  spaces : List Char
  first : Option Char
  further : List Char
  deriving Repr, Inhabited

namespace Fold

def none : Fold := ⟨[], .none, []⟩

def crossesLine (f : Fold) : Bool := f.first.isSome || !f.further.isEmpty

/-- The text a gap stands for. -/
def text (f : Fold) : List Char :=
  match f.first with
  | .none => f.spaces ++ f.further
  | some '\n' => if f.further.isEmpty then [' '] else f.further
  | some c => c :: f.further

end Fold

/-! ## Gaps -/

/-- Gaps and line ends; after a line end, tabs before the least column are refused.
`broken` says that a line end came before. -/
def foldGap (least : Nat) : Nat → Bool → Fold → Cursor → Option (Fold × Cursor)
  | 0, _, f, c => some (f, c)
  | fuel + 1, broken, f, c =>
    match c.rest with
    | [] => some (f, c)
    | a :: _ =>
      if isBreak a then
        let f := if broken then { f with further := f.further ++ [a] }
          else { f with first := some a, spaces := [] }
        foldGap least fuel true f c.next
      else if isGap a then
        if broken then
          if a == '\t' && decide (c.column < least) then none
          else foldGap least fuel true f c.next
        else foldGap least fuel false { f with spaces := f.spaces ++ [a] } c.next
      else some (f, c)

/-! ## Plain scalars -/

/-- Characters that end a plain scalar within a flow collection. -/
def isFlowMark (c : Char) : Bool := ",[]\x7b\x7d".toList.contains c

/-- A piece without gaps. Within a flow collection a colon may not touch a mark. -/
def plainPiece (inFlow : Bool) : Nat → Cursor → Option (List Char × Cursor)
  | 0, c => some ([], c)
  | fuel + 1, c =>
    match c.rest with
    | [] => some ([], c)
    | a :: r =>
      if c.atWordEnd then some ([], c)
      else if inFlow && a == ':' && r.head?.any fun b => isFlowMark b || b == '?' then none
      else if (a == ':' && c.next.atWordEnd) || (inFlow && isFlowMark a) then some ([], c)
      else (plainPiece inFlow fuel c.next).map fun (s, c) => (a :: s, c)

/-- Further pieces after a gap. Handed out too: whether the gap at the end crosses a
line. -/
def plainPieces (inFlow : Bool) (least : Nat) :
    Nat → Fold → Cursor → Option (List Char × Bool × Cursor)
  | 0, _, _ => none
  | fuel + 1, gap, c =>
    if c.atDocumentMark || c.rest.head? = some '#' then some ([], gap.crossesLine, c)
    else do
      let (s, c) ← plainPiece inFlow c.rest.length c
      let shown := if s.isEmpty then [] else gap.text ++ s
      if c.rest.isEmpty || !c.atWordEnd then some (shown, s.isEmpty && gap.crossesLine, c)
      else do
        let (next, c) ← foldGap least c.rest.length false .none c
        if !inFlow && decide (c.column < least) then
          some (shown, next.crossesLine, c)
        else do
          let (more, crosses, c) ← plainPieces inFlow least fuel next c
          some (shown ++ more, crosses, c)

/-! ## Quoted scalars -/

/-- The characters that letters stand for after a backslash. -/
def escapes : List (Char × Char) :=
  [('0', '\x00'), ('a', '\x07'), ('b', '\x08'), ('t', '\t'), ('\t', '\t'), ('n', '\n'),
   ('v', '\x0b'), ('f', '\x0c'), ('r', '\r'), ('e', '\x1b'), (' ', ' '), ('"', '"'),
   ('/', '/'), ('\\', '\\'), ('N', '\u0085'), ('_', '\u00a0'), ('L', '\u2028'),
   ('P', '\u2029')]

/-- How many digits follow a letter that stands for a code point. -/
def codeDigits : Char → Nat
  | 'x' => 2
  | 'u' => 4
  | 'U' => 8
  | _ => 0

/-- The character of a code point, if it has one. -/
def ofCode? (n : Nat) : Option Char :=
  if h : n.isValidChar then some (Char.ofNatAux n h) else none

/-- What comes after a backslash. -/
def escape? (c : Cursor) : Option (Char × Cursor) :=
  match c.rest with
  | [] => none
  | a :: r =>
    match escapes.find? fun e => e.1 == a with
    | some (_, shown) => some (shown, c.next)
    | none =>
      let width := codeDigits a
      if width = 0 ∨ r.length < width then none
      else do
        let n ← Number.natural? 16 (r.take width)
        let shown ← ofCode? n
        some (shown, c.skip (width + 1))

/-- A piece of a quoted scalar, and whether a backslash ends its line. -/
def quotedPiece (double : Bool) : Nat → Cursor → Option (List Char × Bool × Cursor)
  | 0, c => some ([], false, c)
  | fuel + 1, c =>
    match c.rest with
    | [] => some ([], false, c)
    | a :: r =>
      if c.atWordEnd then some ([], false, c)
      else if !double && a == '\'' && r.head? = some '\'' then
        (quotedPiece double fuel (c.skip 2)).map fun (s, b, c) => ('\'' :: s, b, c)
      else if a == (if double then '"' else '\'') then some ([], false, c)
      else if double && a == '\\' then
        if r.head?.any isBreak then some ([], true, c.skip 2)
        else do
          let (shown, c) ← escape? c.next
          let (s, b, c) ← quotedPiece double fuel c
          some (shown :: s, b, c)
      else (quotedPiece double fuel c.next).map fun (s, b, c) => (a :: s, b, c)

/-- A quoted scalar behind its opening quote. -/
def quoted (double : Bool) : Nat → Cursor → Option (List Char × Cursor)
  | 0, _ => none
  | fuel + 1, c =>
    if c.atDocumentMark || c.rest.isEmpty then none
    else do
      let (s, broken, c) ← quotedPiece double c.rest.length c
      if c.rest.head? = some (if double then '"' else '\'') then some (s, c.next)
      else do
        let (gap, c) ← foldGap 0 c.rest.length broken .none c
        let (more, c) ← quoted double fuel c
        some (s ++ gap.text ++ more, c)

/-! ## Block scalars -/

/-- What happens to the line ends that end a block. -/
inductive Chomping where
  | strip
  | clip
  | keep
  deriving DecidableEq, Repr, Inhabited

/-- The signs behind the mark of a block, in either order: chomping and columns. -/
def blockHeader? (c : Cursor) : Option (Chomping × Option Nat × Cursor) :=
  let chomping? : Cursor → Option (Chomping × Cursor) := fun c =>
    match c.rest with
    | '-' :: _ => some (.strip, c.next)
    | '+' :: _ => some (.keep, c.next)
    | _ => none
  let columns? : Cursor → Option (Nat × Cursor) := fun c =>
    match c.rest with
    | d :: _ => if d.isDigit then some (d.toNat - '0'.toNat, c.next) else none
    | _ => none
  let header := match chomping? c with
    | some (ch, c) =>
      match columns? c with
      | some (n, c) => (ch, some n, c)
      | none => (ch, none, c)
    | none =>
      match columns? c with
      | some (n, c) =>
        match chomping? c with
        | some (ch, c) => (ch, some n, c)
        | none => (.clip, some n, c)
      | none => (.clip, none, c)
  if header.2.1 = some 0 then none else some header

/-- Empty lines before the next line of a block, and the greatest column that one of them
or the line reaches. The column is not known at first; tabs before it are refused. -/
def emptyLines (column : Option Nat) :
    Nat → Nat → List Char → Cursor → Option (Nat × List Char × Cursor)
  | 0, reached, breaks, c => some (reached, breaks, c)
  | fuel + 1, reached, breaks, c =>
    let before := column.all fun n => decide (c.column < n)
    match c.rest with
    | a :: _ =>
      if before && a == ' ' then emptyLines column fuel reached breaks c.next
      else
        let reached := max reached c.column
        if before && a == '\t' then none
        else if isBreak a then emptyLines column fuel reached (breaks ++ [a]) c.next
        else some (reached, breaks, c)
    | [] => some (max reached c.column, breaks, c)

/-- The lines of a block from one in its column on. `last` is the line end before, which
folding may turn into a space, and `breaks` are the empty lines since. -/
def blockLines (folded : Bool) (column : Nat) :
    Nat → Option Char → Bool → List Char → Cursor →
      Option (List Char × Option Char × List Char × Cursor)
  | 0, last, _, breaks, c => some ([], last, breaks, c)
  | fuel + 1, last, indented, breaks, c =>
    if c.column ≠ column || c.rest.isEmpty then some ([], last, breaks, c)
    else do
      let gap := c.rest.head?.any isGap
      let joint :=
        if folded && last == some '\n' && !indented && !gap then
          (if breaks.isEmpty then [' '] else [])
        else last.toList
      let (s, c) := c.takeWhile fun _ => true
      let next := c.rest.head?
      let (_, further, c) ← emptyLines (some column) c.rest.length 0 [] c.next
      let (more, last, further, c) ← blockLines folded column fuel next gap further c
      some (joint ++ breaks ++ s ++ more, last, further, c)

/-- A block scalar behind its mark, in a block of the given indentation. -/
def blockScalar (folded : Bool) (indent : Int) (c : Cursor) : Option (List Char × Cursor) := do
  let (chomping, columns, c) ← blockHeader? c
  let c ← c.blankLine?
  let (column, breaks, c) ← match columns with
    | some n => do
      let column := (max indent 0).toNat + n
      let (_, breaks, c) ← emptyLines (some column) c.rest.length 0 [] c
      some (column, breaks, c)
    | none => do
      let (reached, breaks, c) ← emptyLines none c.rest.length 0 [] c
      some (max reached (max (indent + 1) 1).toNat, breaks, c)
  let (s, last, breaks, c) ← blockLines folded column c.rest.length none false breaks c
  some (match chomping with
    | .strip => (s, c)
    | .clip => (s ++ last.toList, c)
    | .keep => (s ++ last.toList ++ breaks, c))

end Misuse.Yaml
