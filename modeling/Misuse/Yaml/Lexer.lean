import Misuse.Yaml.ScalarLexer
import Misuse.Yaml.TagLexer

/-!
# Lexing YAML

The lexer keeps the columns of the open blocks and, for each level of flow collections,
the token that a later colon may turn into a key. Such a token has to begin on the line of
the colon and at most `keyReach` bytes before it.
-/

namespace Misuse.Yaml

/-- A token that may turn out to be a key. -/
structure Candidate where
  /-- The number of tokens before it. -/
  index : Nat
  offset : Nat
  line : Nat
  column : Nat
  /-- In this place nothing but a key can stand. -/
  required : Bool
  deriving Repr, Inhabited

def keyReach : Nat := 1024

structure Lexer where
  cursor : Cursor
  /-- The column of the innermost open block, -1 outside of all. -/
  indent : Int
  /-- The columns of the blocks around it. -/
  outer : List Int
  keyAllowed : Bool
  /-- One entry outside of flow collections and one more for each that is open. -/
  candidates : List (Option Candidate)
  tokens : Array Token
  deriving Inhabited

namespace Lexer

def start (s : List Char) : Lexer := ⟨.start s, -1, [], true, [none], #[]⟩

def inFlow (l : Lexer) : Bool := decide (1 < l.candidates.length)

def push (l : Lexer) (t : Token) : Lexer := { l with tokens := l.tokens.push t }

def insertAt (l : Lexer) (index : Nat) (t : Token) : Lexer :=
  { l with tokens := (l.tokens.extract 0 index).push t ++ l.tokens.extract index l.tokens.size }

/-! ## Blocks -/

/-- Close the blocks that are deeper than a column. -/
def unroll (column : Int) : List Int → Lexer → Lexer
  | outer, l =>
    if l.inFlow || decide (l.indent ≤ column) then l
    else
      match outer with
      | [] => l
      | o :: os => unroll column os { (l.push .blockEnd) with indent := o, outer := os }

def unrollTo (l : Lexer) (column : Int) : Lexer := unroll column l.outer l

/-- Open a block in a column that is deeper than the innermost one; its token goes to an
index, or else to the end. -/
def roll (l : Lexer) (column : Nat) (index : Option Nat) (t : Token) : Lexer :=
  if l.inFlow || decide ((column : Int) ≤ l.indent) then l
  else
    let l := { l with indent := column, outer := l.indent :: l.outer }
    match index with
    | none => l.push t
    | some i => l.insertAt i t

/-! ## Candidates for keys -/

/-- Forget the candidate of this level. It must not be a required one. -/
def dropCandidate (l : Lexer) : Option Lexer :=
  match l.candidates with
  | some k :: ks => if k.required then none else some { l with candidates := none :: ks }
  | _ => some l

/-- The next token may turn out to be a key. -/
def saveCandidate (l : Lexer) : Option Lexer :=
  if !l.keyAllowed then some l
  else do
    let l ← l.dropCandidate
    let c := l.cursor
    let required := !l.inFlow && l.indent == c.column
    some { l with
      candidates :=
        some ⟨l.tokens.size, c.offset, c.line, c.column, required⟩ :: l.candidates.tail }

/-- Forget the candidates that are out of reach. -/
def dropStale (l : Lexer) : Option Lexer := do
  let candidates ← l.candidates.mapM fun
    | some k =>
      if k.line < l.cursor.line || k.offset + keyReach < l.cursor.offset then
        if k.required then none else some none
      else some (some k)
    | none => some none
  some { l with candidates := candidates }

/-! ## Gaps between tokens -/

/-- Past spaces, comments and line ends. Tabs count as spaces where no key can begin. A
line may begin with a byte order mark, which takes a column. -/
def skipGap : Nat → Lexer → Lexer
  | 0, l => l
  | fuel + 1, l =>
    let c := l.cursor
    match c.rest with
    | [] => l
    | a :: _ =>
      if (c.column = 0 ∧ a = '\ufeff') || a == ' '
          || (a == '\t' && (l.inFlow || !l.keyAllowed)) then
        skipGap fuel { l with cursor := c.next }
      else if a == '#' then
        skipGap fuel { l with cursor := (c.takeWhile fun _ => true).2 }
      else if isBreak a then
        skipGap fuel { l with cursor := c.next, keyAllowed := l.keyAllowed || !l.inFlow }
      else l

/-! ## Tokens of one sign -/

def sign (l : Lexer) (t : Token) (keyAllowed : Bool) : Lexer :=
  { (l.push t) with cursor := l.cursor.next, keyAllowed := keyAllowed }

def documentMark (l : Lexer) (t : Token) : Option Lexer := do
  let l ← (l.unrollTo (-1)).dropCandidate
  some { (l.push t) with cursor := l.cursor.skip 3, keyAllowed := false }

def flowStart (l : Lexer) (t : Token) : Option Lexer := do
  let l ← l.saveCandidate
  some ({ l with candidates := none :: l.candidates }.sign t true)

def flowEnd (l : Lexer) (t : Token) : Option Lexer := do
  let l ← l.dropCandidate
  let candidates := if l.inFlow then l.candidates.tail else l.candidates
  some ({ l with candidates := candidates }.sign t false)

def flowEntry (l : Lexer) : Option Lexer := do
  let l ← l.dropCandidate
  some (l.sign .flowEntry true)

def blockEntry (l : Lexer) : Option Lexer := do
  if !l.inFlow && !l.keyAllowed then none
  else
    let l ← (l.roll l.cursor.column none .blockList).dropCandidate
    some (l.sign .blockEntry true)

def explicitKey (l : Lexer) : Option Lexer := do
  if !l.inFlow && !l.keyAllowed then none
  else
    let l ← (l.roll l.cursor.column none .blockRecord).dropCandidate
    some (l.sign .key (!l.inFlow))

/-- A colon makes the candidate a key, if there is one. -/
def value (l : Lexer) : Option Lexer :=
  match l.candidates with
  | some k :: ks =>
    let l := ({ l with candidates := none :: ks }.insertAt k.index .key).roll k.column
      (some k.index) .blockRecord
    some (l.sign .value false)
  | _ =>
    if !l.inFlow && !l.keyAllowed then none
    else some ((l.roll l.cursor.column none .blockRecord).sign .value (!l.inFlow))

/-! ## Names, tags and directives -/

/-- The name behind a star or an ampersand. -/
def name (l : Lexer) (token : String → Token) : Option Lexer := do
  let l ← l.saveCandidate
  let (s, c) := l.cursor.next.takeWhile isNameChar
  let ends := c.atWordEnd || c.rest.head?.any fun a => "?:,]\x7d%@`".toList.contains a
  if s.isEmpty || !ends then none
  else some { (l.push (token (String.ofList s))) with cursor := c, keyAllowed := false }

def tag (l : Lexer) : Option Lexer := do
  let l ← l.saveCandidate
  let (t, c) ← tagToken? l.cursor
  if c.atWordEnd || (l.inFlow && c.rest.head? = some ',') then
    some { (l.push t) with cursor := c, keyAllowed := false }
  else none

/-- A line that begins with a percent sign. -/
def directive (l : Lexer) : Option Lexer := do
  let l ← (l.unrollTo (-1)).dropCandidate
  let (t, c) ← directiveToken? l.cursor
  some { (l.push t) with cursor := c, keyAllowed := false }

/-! ## Scalars -/

def quotedScalar (l : Lexer) (double : Bool) : Option Lexer := do
  let l ← l.saveCandidate
  let (s, c) ← quoted double (l.cursor.rest.length + 1) l.cursor.next
  some { (l.push (.scalar (if double then .double else .single) (String.ofList s))) with
    cursor := c, keyAllowed := false }

def blockScalar (l : Lexer) (folded : Bool) : Option Lexer := do
  let l ← l.dropCandidate
  let (s, c) ← Yaml.blockScalar folded l.indent l.cursor.next
  some { (l.push (.scalar (if folded then .folded else .literal) (String.ofList s))) with
    cursor := c, keyAllowed := true }

/-- Can a plain scalar begin here? -/
def startsPlain (l : Lexer) : Bool :=
  match l.cursor.rest with
  | [] => false
  | a :: r =>
    let gapNext := r.head?.any isGap
    if a == '-' then !gapNext
    else if a == '?' || a == ':' then !l.inFlow && !l.cursor.next.atWordEnd
    else !l.cursor.atWordEnd && !(",[]\x7b\x7d#&*!|>'\"%@`".toList.contains a)

def plainScalar (l : Lexer) : Option Lexer := do
  let l ← l.saveCandidate
  let (s, crosses, c) ←
    plainPieces l.inFlow (l.indent + 1).toNat (l.cursor.rest.length + 1) .none l.cursor
  some { (l.push (.scalar .plain (String.ofList s))) with cursor := c, keyAllowed := crosses }

/-! ## The whole text -/

/-- The next token, in front of some character. -/
def token (l : Lexer) (a : Char) : Option Lexer :=
  let c := l.cursor
  let alone := c.next.atWordEnd
  if c.column = 0 ∧ a = '%' then l.directive
  else if c.atMark "---" then l.documentMark .documentStart
  else if c.atMark "..." then l.documentMark .documentEnd
  else if a == '[' then l.flowStart .flowList
  else if a == '\x7b' then l.flowStart .flowRecord
  else if a == ']' then l.flowEnd .flowListEnd
  else if a == '\x7d' then l.flowEnd .flowRecordEnd
  else if a == ',' then l.flowEntry
  else if a == '-' && alone then l.blockEntry
  else if a == '?' && (l.inFlow || alone) then l.explicitKey
  else if a == ':' && (l.inFlow || alone) then l.value
  else if a == '*' then l.name .alias
  else if a == '&' then l.name .anchor
  else if a == '!' then l.tag
  else if a == '|' && !l.inFlow then l.blockScalar false
  else if a == '>' && !l.inFlow then l.blockScalar true
  else if a == '\'' then l.quotedScalar false
  else if a == '"' then l.quotedScalar true
  else if l.startsPlain then l.plainScalar
  else none

/-- All tokens from here on. -/
def run : Nat → Lexer → Option (List Token)
  | 0, _ => none
  | fuel + 1, l => do
    let l ← (skipGap (l.cursor.rest.length + 1) l).dropStale
    let l := l.unrollTo l.cursor.column
    match l.cursor.rest with
    | [] =>
      let l ← (l.unrollTo (-1)).dropCandidate
      some l.tokens.toList
    | a :: _ => do
      let l ← l.token a
      run fuel l

end Lexer

/-- The tokens of a text. -/
def tokens? (s : List Char) : Option (List Token) :=
  if s.all isAllowed then (Lexer.start s).run (s.length + 1) else none

end Misuse.Yaml
