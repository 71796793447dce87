import Misuse.Yaml.Cursor
import Misuse.Yaml.Number

/-!
# Lexing tags and directives

A tag is a handle and what follows it, or is given in full between angle brackets. Octets
may be spelled as a percent sign and two digits, and have to form sequences as UTF-8 has
them. A tag is a text of octets, one a character, and ends before its first zero octet.
-/

namespace Misuse.Yaml

/-- Characters of names: of anchors, handles and directives. -/
def isNameChar (c : Char) : Bool := c.isAlphanum || c == '_' || c == '-'

/-- Characters of tags. Commas and brackets are among them in full tags only. -/
def isTagChar (inFull : Bool) (c : Char) : Bool :=
  isNameChar c || ";/?:@&=+$.!~*'()%".toList.contains c
    || (inFull && (c == ',' || c == '[' || c == ']'))

/-! ## Octets -/

/-- How many octets follow the first one of a sequence. -/
def octetsAfter? (n : Nat) : Option Nat :=
  if n < 0x80 then some 0
  else if n < 0xC0 then none
  else if n < 0xE0 then some 1
  else if n < 0xF0 then some 2
  else if n < 0xF8 then some 3
  else none

/-- The number of octets that are still due after one more, if that one may come here. -/
def octetsDue? (due n : Nat) : Option Nat :=
  if due = 0 then octetsAfter? n
  else if 0x80 ≤ n ∧ n < 0xC0 then some (due - 1)
  else none

/-- Escapes become octets. While octets are due, nothing but an escape may come. -/
def decoded? (due : Nat) : List Char → Option (List Char)
  | [] => if due = 0 then some [] else none
  | '%' :: a :: b :: r => do
    let n ← Number.natural? 16 [a, b]
    let due ← octetsDue? due n
    (decoded? due r).map (Char.ofNat n :: ·)
  | c :: r => if c = '%' ∨ due ≠ 0 then none else (decoded? 0 r).map (c :: ·)

/-- The text of a tag, which may be empty. -/
def tagText? (inFull : Bool) (c : Cursor) : Option (String × Cursor) := do
  let (raw, c) := c.takeWhile (isTagChar inFull)
  let s ← decoded? 0 raw
  some (String.ofList (s.takeWhile (· ≠ '\x00')), c)

/-- The text of a tag that is not empty. -/
def someTagText? (inFull : Bool) (c : Cursor) : Option (String × Cursor) := do
  let (s, next) ← tagText? inFull c
  if next.offset = c.offset then none else some (s, next)

/-! ## Tags -/

/-- A tag from its exclamation mark on. A handle with a name needs a rest; a sole `!` is a
tag of its own. -/
def tagToken? (c : Cursor) : Option (Token × Cursor) :=
  let c := c.next
  if c.rest.head? = some '<' then do
    let (s, c) ← someTagText? true c.next
    if c.rest.head? = some '>' then some (.tag "" s, c.next) else none
  else
    let (name, afterName) := c.takeWhile isNameChar
    if afterName.rest.head? = some '!' then do
      let (s, c) ← someTagText? false afterName.next
      some (.tag (String.ofList ('!' :: name ++ ['!'])) s, c)
    else do
      let (s, c) ← tagText? false c
      some (if s.isEmpty then .tag "" "!" else .tag "!" s, c)

/-! ## Directives -/

/-- A version number has at most nine digits. -/
def versionNumber? (c : Cursor) : Option (Nat × Cursor) := do
  let (ds, c) := c.takeWhile Char.isDigit
  if 9 < ds.length then none else some (← Number.natural? 10 ds, c)

/-- A major and a minor number. -/
def versionToken? (c : Cursor) : Option (Token × Cursor) := do
  let (major, c) ← versionNumber? (c.takeWhile isGap).2
  if c.rest.head? = some '.' then
    let (minor, c) ← versionNumber? c.next
    some (.version major minor, c)
  else none

/-- A handle, which is `!` or a name between two of them, and the text it stands for. -/
def handleToken? (c : Cursor) : Option (Token × Cursor) := do
  let c := (c.takeWhile isGap).2
  if c.rest.head? ≠ some '!' then none
  else
    let (name, c) := c.next.takeWhile isNameChar
    let closed := c.rest.head? = some '!'
    if !closed && !name.isEmpty then none
    else
      let handle := '!' :: name ++ if closed then ['!'] else []
      let c := if closed then c.next else c
      if !(c.rest.head?.any isGap) then none
      else
        let (full, c) ← someTagText? true (c.takeWhile isGap).2
        if c.atWordEnd then some (.handle (String.ofList handle) full, c) else none

/-- A directive from its percent sign on, with its line end. -/
def directiveToken? (c : Cursor) : Option (Token × Cursor) := do
  let (name, c) := c.next.takeWhile isNameChar
  if !c.atWordEnd then none
  else
    let (t, c) ←
      if name = "YAML".toList then versionToken? c
      else if name = "TAG".toList then handleToken? c
      else none
    some (t, ← c.blankLine?)

end Misuse.Yaml
