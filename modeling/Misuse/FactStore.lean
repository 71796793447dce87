import Misuse.Fact

/-!
# The fact store

An append-only log of facts with an index by predicate name. The index keeps, for each
argument list, when it was established last and when it was retracted last. A list is
visible while no covering retraction is later; a query holds if a visible list unifies
with it.
-/

namespace Misuse

/-- Argument lists with the number of their latest fact, in order of first appearance. -/
abbrev Latest := List (Args × Nat)

namespace Latest

def get? (l : Latest) (args : Args) : Option Nat := (l.find? fun e => e.1 == args).map Prod.snd

def set (args : Args) (seq : Nat) : Latest → Latest
  | [] => [(args, seq)]
  | e :: r => if e.1 == args then (args, max e.2 seq) :: r else e :: set args seq r

end Latest

/-- The index of one predicate name. -/
structure NameIndex where
  established : Latest
  retracted : Latest
  /-- Some established list has a wildcard. -/
  wideEstablished : Bool
  /-- Some retraction has a wildcard. -/
  wideRetracted : Bool
  deriving DecidableEq, Repr, Inhabited

namespace NameIndex

def empty : NameIndex := ⟨[], [], false, false⟩

def record (ix : NameIndex) (args : Args) (seq : Nat) (negated : Bool) : NameIndex :=
  if negated then
    { ix with
      retracted := ix.retracted.set args seq
      wideRetracted := ix.wideRetracted || Args.hasAny args }
  else
    { ix with
      established := ix.established.set args seq
      wideEstablished := ix.wideEstablished || Args.hasAny args }

/-- A later retraction of just this list. -/
def retractedAsIs (ix : NameIndex) (args : Args) (seq : Nat) : Bool :=
  match ix.retracted.get? args with
  | some later => decide (later > seq)
  | none => false

/-- The list established at `seq` is not covered by a later retraction. Without wildcards a
retraction covers its own list only. -/
def isVisible (ix : NameIndex) (args : Args) (seq : Nat) : Bool :=
  if ix.retractedAsIs args seq then false
  else if ix.wideRetracted then
    !(ix.retracted.any fun (r, later) => decide (later > seq) && Args.cover r args)
  else true

/-- Some visible list unifies with the query. Without wildcards only the query itself can. -/
def holds (ix : NameIndex) (query : Args) : Bool :=
  if !ix.wideEstablished && !Args.hasAny query then
    match ix.established.get? query with
    | some seq => ix.isVisible query seq
    | none => false
  else ix.established.any fun (args, seq) => Args.unify args query && ix.isVisible args seq

def visible (ix : NameIndex) : List Args :=
  Sorted.ofList ((ix.established.filter fun (args, seq) => ix.isVisible args seq).map Prod.fst)

end NameIndex

structure FactStore where
  /-- In order of publication. -/
  log : List Fact
  index : List (String × NameIndex)
  deriving DecidableEq, Repr, Inhabited

namespace FactStore

def empty : FactStore := ⟨[], []⟩

def recordIn (f : Fact) (seq : Nat) : List (String × NameIndex) → List (String × NameIndex)
  | [] => [(f.name, NameIndex.empty.record f.args seq f.negated)]
  | (name, ix) :: r =>
    if name == f.name then (name, ix.record f.args seq f.negated) :: r
    else (name, ix) :: recordIn f seq r

/-- The number of facts so far, and of the next one. -/
def size (s : FactStore) : Nat := s.log.length

def publish (s : FactStore) (f : Fact) : FactStore :=
  ⟨s.log ++ [f], recordIn f s.size s.index⟩

def publishAll (s : FactStore) (fs : List Fact) : FactStore := fs.foldl publish s

/-- Publish facts as retractions. -/
def retractAll (s : FactStore) (fs : List Fact) : FactStore :=
  s.publishAll (fs.map fun f => { f with negated := true })

def indexOf? (s : FactStore) (name : String) : Option NameIndex :=
  (s.index.find? fun e => e.1 == name).map Prod.snd

def query (s : FactStore) (name : String) (args : Args) : Bool :=
  match s.indexOf? name with
  | some ix => ix.holds args
  | none => false

/-- The visible argument lists of a name, as an increasing list. -/
def visible (s : FactStore) (name : String) : List Args :=
  match s.indexOf? name with
  | some ix => ix.visible
  | none => []

/-- The facts with their numbers. -/
def events (s : FactStore) : List (Nat × Fact) := s.log.zipIdx.map fun (f, seq) => (seq, f)

end FactStore

end Misuse
