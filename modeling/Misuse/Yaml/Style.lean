import Misuse.Yaml.Shape

/-!
# How a text is written

A text is written plainly where nothing else could be read for it, else in single quotes,
else in double quotes; a text with line feeds is written as a literal block where a block can
hold it. Main statement: `ofText` keeps the text (`ofText_text`).
-/

namespace Misuse.Yaml

/-! ## What a text looks like -/

/-- Plain, the text would be something else, or is a number but for a leading zero. -/
def looksTyped (s : String) : Bool :=
  s.isEmpty || spellsNull s || (spelledFlag? s).isSome || Number.spellsNumber s
    || Number.isPadded s

/-- Characters that are shown as they are. -/
def isPrintable (c : Char) : Bool :=
  let n := c.toNat
  c == '\n' || (decide (0x20 ≤ n) && decide (n ≤ 0x7E))
    || (decide (0xA0 ≤ n) && decide (n ≤ 0xFFFD) && n != 0xFEFF) || decide (0x10000 ≤ n)

/-- A gap, a line end or the end of the text comes next. -/
def endsWord : List Char → Bool
  | [] => true
  | c :: _ => isGap c || isBreak c

/-- A colon before a gap, or a hash after one. -/
def hasMark (afterGap : Bool) : List Char → Bool
  | [] => false
  | c :: r =>
    (c == ':' && endsWord r) || (c == '#' && afterGap)
      || hasMark (isGap c || isBreak c) r

/-- A first character that would begin something else. -/
def opensOther : List Char → Bool
  | [] => false
  | c :: r =>
    "#,[]\x7b\x7d&*!|>'\"%@`".toList.contains c || ((c == '?' || c == '-') && endsWord r)

def opensDocument (s : List Char) : Bool :=
  "---".toList.isPrefixOf s || "...".toList.isPrefixOf s

/-- Neighbours of two kinds. -/
def hasPair (p q : Char → Bool) : List Char → Bool
  | a :: b :: r => (p a && q b) || hasPair p q (b :: r)
  | _ => false

def isSpace (c : Char) : Bool := c == ' '

/-! ## What may hold it -/

/-- No space before a line end, and every character can be shown: all but double quotes
need this. -/
def isTame (s : List Char) : Bool := !(hasPair isSpace isBreak s) && s.all isPrintable

def singleHolds (s : List Char) : Bool :=
  isTame s && !(hasPair isBreak isSpace s)

def literalHolds (s : List Char) : Bool := isTame s && !(s.getLast?.any isSpace)

def plainHolds (s : List Char) : Bool :=
  singleHolds s && !(s.any isBreak) && !(s.head?.any isSpace)
    && !(s.getLast?.any isSpace) && !(opensOther s) && !(opensDocument s)
    && !(hasMark true s)

def styleOf (s : String) : Style :=
  let cs := s.toList
  if cs.contains '\n' then (if literalHolds cs then .literal else .double)
  else if plainHolds cs && !looksTyped s then .plain
  else if singleHolds cs then .single
  else .double

def ofText (s : String) : Yaml := .scalar ⟨s, styleOf s, none⟩

/-! ## Laws -/

theorem ofText_text (as : Anchors) (s : String) : text? as (ofText s) = some s := rfl

end Misuse.Yaml
