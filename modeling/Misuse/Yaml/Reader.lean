import Misuse.Yaml.Anchor
import Misuse.Yaml.Lexer

/-!
# Reading YAML

A text holds one document. `Yaml.read?` gives its tree with what aliases refer to, or
nothing if the text is not YAML, holds several documents, or has an alias to a name that no
anchor before it gives.
-/

namespace Misuse.Yaml

/-- What is left of the tokens, and what has been named so far. -/
structure Reading where
  tokens : List Token
  /-- The slots of the names so far. -/
  slots : List (String × Nat)
  /-- How many anchored nodes have begun. -/
  begun : Nat
  /-- The anchored nodes that have ended. -/
  anchors : Anchors
  /-- Handles of tags with what they stand for, later ones first. -/
  handles : List (String × String)
  deriving Inhabited

abbrev Read := StateT Reading Option

namespace Read

def peek : Read (Option Token) := fun r => some (r.tokens.head?, r)

def drop : Read Unit := fun r => some ((), { r with tokens := r.tokens.tail })

def refuse : Read α := fun _ => none

/-- Take the next token if it is this one. -/
def take (t : Token) : Read Bool := do
  if (← peek) = some t then
    drop
    return true
  else return false

def expect (t : Token) : Read Unit := do
  if !(← take t) then refuse

/-- Is the next token one of these, or is there none? -/
def meets (ts : List Token) : Read Bool := do
  match ← peek with
  | none => return true
  | some t => return ts.contains t

/-- Read, unless one of these tokens comes next: then nothing is written there. -/
def orVoid (ts : List Token) (read : Read Yaml) : Read Yaml := do
  if ← meets ts then return void else read

/-! ## Properties of a node -/

structure Properties where
  anchor : Option String
  tag : Option String
  deriving Inhabited

def fullTag (handle suffix : String) : Read String := fun r =>
  if handle.isEmpty then some (suffix, r)
  else (r.handles.find? fun h => h.1 == handle).map fun h => (h.2 ++ suffix, r)

def anchor? : Read (Option String) := do
  match ← peek with
  | some (.anchor name) => drop; return some name
  | _ => return none

def tag? : Read (Option String) := do
  match ← peek with
  | some (.tag handle suffix) =>
    drop
    return some (← fullTag handle suffix)
  | _ => return none

/-- An anchor and a tag, in either order. -/
def properties : Read Properties := do
  match ← anchor? with
  | some name => return ⟨some name, ← tag?⟩
  | none =>
    let tag ← tag?
    return ⟨← if tag.isSome then anchor? else pure none, tag⟩

def isBare (p : Properties) : Bool := p.anchor.isNone && p.tag.isNone

def scalar (p : Properties) (style : Style) (text : String) : Yaml :=
  .scalar ⟨text, style, p.tag⟩

/-- A slot for a node that begins, with the order of the node. The name moves to it from
the slot it had. -/
def reserve : Option String → Read (Option (Nat × Nat))
  | none => return none
  | some name => fun r =>
    let slot := r.slots.length
    let others := r.slots.filter fun s => s.1 != name
    some (some (slot, r.begun), { r with slots := (name, slot) :: others, begun := r.begun + 1 })

/-- The node of a slot has ended. -/
def fill (place : Option (Nat × Nat)) (y : Yaml) : Read Yaml := fun r =>
  match place with
  | none => some (y, r)
  | some (slot, order) => some (y, { r with anchors := ⟨slot, order, y⟩ :: r.anchors })

def aliasOf (name : String) : Read Yaml := fun r =>
  (r.slots.find? fun s => s.1 == name).map fun s => (.alias s.2, r)

/-! ## Nodes -/

mutual

/-- A node. A block may stand here if `inBlock`, and a list in the column of its field if
`listHere`. -/
def node : Nat → Bool → Bool → Read Yaml
  | 0, _, _ => refuse
  | fuel + 1, inBlock, listHere => do
    match ← peek with
    | some (.alias name) => drop; aliasOf name
    | _ =>
      let p ← properties
      let place ← reserve p.anchor
      fill place (← content fuel inBlock listHere p)

def content : Nat → Bool → Bool → Properties → Read Yaml
  | 0, _, _, _ => refuse
  | fuel + 1, inBlock, listHere, p => do
    match ← peek with
    | some (.scalar style text) => drop; return scalar p style text
    | some .flowList => drop; return .list (← flowItems fuel true)
    | some .flowRecord => drop; return .record (← flowFields fuel true)
    | some .blockEntry =>
      if listHere then return .list (← entries fuel)
      else if isBare p then refuse
      else return scalar p .plain ""
    | some .blockList =>
      if inBlock then drop; return .list (← blockItems fuel)
      else if isBare p then refuse
      else return scalar p .plain ""
    | some .blockRecord =>
      if inBlock then drop; return .record (← blockFields fuel)
      else if isBare p then refuse
      else return scalar p .plain ""
    | _ => if isBare p then refuse else return scalar p .plain ""

/-- The items of a block list up to its end. -/
def blockItems : Nat → Read (List Yaml)
  | 0 => refuse
  | fuel + 1 => do
    if ← take .blockEnd then return []
    expect .blockEntry
    let y ← orVoid [.blockEntry, .blockEnd] (node fuel true false)
    return y :: (← blockItems fuel)

/-- The items of a list that has no block of its own. -/
def entries : Nat → Read (List Yaml)
  | 0 => refuse
  | fuel + 1 => do
    if ← take .blockEntry then
      let y ← orVoid [.blockEntry, .key, .value, .blockEnd] (node fuel true false)
      return y :: (← entries fuel)
    else return []

def blockFields : Nat → Read (List (Yaml × Yaml))
  | 0 => refuse
  | fuel + 1 => do
    if ← take .blockEnd then return []
    expect .key
    let key ← orVoid [.key, .value, .blockEnd] (node fuel true true)
    let y ←
      if ← take .value then orVoid [.key, .value, .blockEnd] (node fuel true true)
      else pure void
    return (key, y) :: (← blockFields fuel)

/-- The items of a flow list up to its end. An item may be a record of one field; if its key
is not written, the sign that comes instead is passed over. -/
def flowItems : Nat → Bool → Read (List Yaml)
  | 0, _ => refuse
  | fuel + 1, first => do
    if ← take .flowListEnd then return []
    if !first then expect .flowEntry
    if ← take .flowListEnd then return []
    let y ←
      if ← take .key then do
        let key ←
          if ← meets [.value, .flowEntry, .flowListEnd] then do
            drop
            pure void
          else node fuel false false
        let y ←
          if ← take .value then orVoid [.flowEntry, .flowListEnd] (node fuel false false)
          else pure void
        pure (Yaml.record [(key, y)])
      else node fuel false false
    return y :: (← flowItems fuel false)

def flowFields : Nat → Bool → Read (List (Yaml × Yaml))
  | 0, _ => refuse
  | fuel + 1, first => do
    if ← take .flowRecordEnd then return []
    if !first then expect .flowEntry
    if ← take .flowRecordEnd then return []
    if ← take .key then
      let key ← orVoid [.value, .flowEntry, .flowRecordEnd] (node fuel false false)
      let y ←
        if ← take .value then orVoid [.flowEntry, .flowRecordEnd] (node fuel false false)
        else pure void
      return (key, y) :: (← flowFields fuel false)
    else
      let key ← node fuel false false
      return (key, void) :: (← flowFields fuel false)

end

/-! ## Documents -/

/-- The versions that are read: YAML 1.1 and 1.2. -/
def isSupported (major minor : Nat) : Bool := major == 1 && (minor == 1 || minor == 2)

/-- The directives of a document: at most one version, and handles, each once. -/
def directives : Nat → Bool → List String → Read Bool
  | 0, _, _ => refuse
  | fuel + 1, versioned, handles => do
    match ← peek with
    | some (.version major minor) =>
      if versioned || !isSupported major minor then refuse
      else
        drop
        directives fuel true handles
    | some (.handle name full) =>
      if handles.contains name then refuse
      else
        drop
        modify fun r => { r with handles := (name, full) :: r.handles }
        directives fuel versioned (name :: handles)
    | _ => return versioned || !handles.isEmpty

def documentEnds : Nat → Read Unit
  | 0 => refuse
  | fuel + 1 => do
    if ← take .documentEnd then documentEnds fuel

/-- One document, and the end of the text. -/
def document (fuel : Nat) : Read Yaml := do
  let directed ← directives fuel false []
  let y ←
    if ← take .documentStart then
      orVoid [.documentStart, .documentEnd] (node fuel true false)
    else if directed then refuse
    else if (← peek).isNone then pure void
    else node fuel true false
  documentEnds fuel
  if (← peek).isSome then refuse
  return y

end Read

/-- Handles that need no directive. -/
def standardHandles : List (String × String) := [("!", "!"), ("!!", standardTags)]

/-- The document of a text. -/
def read? (s : String) : Option Document := do
  let tokens ← tokens? s.toList
  let (y, r) ← (Read.document (3 * tokens.length + 4)).run ⟨tokens, [], 0, [], standardHandles⟩
  some ⟨y, r.anchors⟩

end Misuse.Yaml
