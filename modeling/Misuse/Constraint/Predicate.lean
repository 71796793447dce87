import Misuse.Constraint.Basic
import Misuse.Distinct

/-!
# Predicates

An atom with its guard. Six names are reserved for relations that are decided from the
view of the object alone; every other predicate is looked up among published facts.
A disjunction of looked-up predicates is a set of alternatives: a worklist takes it apart
(`Constraint.alternatives?`), and finds its leaves from left to right, each kept once
(`Constraint.alternatives?_eq`).
-/

namespace Misuse

/-- The relations decided without facts. -/
inductive Builtin where
  | callTo
  | noCallTo
  | neverTypeOf
  | length
  | notHardCoded
  | instanceOf
  deriving DecidableEq, Repr, Inhabited

namespace Builtin

def all : List Builtin := [.callTo, .noCallTo, .neverTypeOf, .length, .notHardCoded, .instanceOf]

def name : Builtin → String
  | .callTo => "callTo"
  | .noCallTo => "noCallTo"
  | .neverTypeOf => "neverTypeOf"
  | .length => "length"
  | .notHardCoded => "notHardCoded"
  | .instanceOf => "instanceOf"

def ofName? (name : String) : Option Builtin := all.find? fun b => b.name == name

end Builtin

namespace Atom

def builtin? (a : Atom) : Option Builtin := Builtin.ofName? a.name

/-- Looked up among facts. -/
def isLookup (a : Atom) : Bool := a.builtin?.isNone

end Atom

structure Predicate where
  atom : Atom
  guard : Option Constraint
  deriving DecidableEq, Repr, Inhabited

namespace Predicate

def plain (name : String) (terms : List Term) : Predicate := ⟨⟨name, terms, false⟩, none⟩

def ofMethods (builtin : Builtin) (methods : List Signature) : Predicate :=
  plain builtin.name (methods.map .method)

def ofVar (builtin : Builtin) (v : Variable) : Predicate := plain builtin.name [.var v]

def ofType (builtin : Builtin) (v : Variable) (type : String) : Predicate :=
  plain builtin.name [.var v, .type type]

def negate (p : Predicate) : Predicate :=
  { p with atom := { p.atom with negated := !p.atom.negated } }

def guardedBy (p : Predicate) (guard : Constraint) : Predicate := { p with guard := some guard }

def display (p : Predicate) : String := p.atom.display

def isLookup (p : Predicate) : Bool := p.atom.isLookup

/-- The variables among the terms, as an increasing list. -/
def varNames (p : Predicate) : List String := Sorted.ofList p.atom.mentions

def toConstraint (p : Predicate) : Constraint :=
  match p.guard with
  | none => .atom p.atom
  | some g => .guarded p.atom g

/-- The same up to the bindings of results. -/
def forgetResults (p : Predicate) : Predicate :=
  ⟨p.atom.forgetResults, p.guard.map Constraint.forgetResults⟩

def same (p q : Predicate) : Bool := p.forgetResults == q.forgetResults

/-- The same name and terms, whatever the negation and the guard. -/
def sameRelation (p q : Predicate) : Bool :=
  p.atom.name == q.atom.name &&
    p.atom.forgetResults.terms == q.atom.forgetResults.terms

end Predicate

/-- Predicates of which one suffices, each kept once. -/
structure Alternatives where
  members : List Predicate
  deriving DecidableEq, Repr, Inhabited

namespace Alternatives

def ofList (ps : List Predicate) : Alternatives := ⟨distinctBy Predicate.forgetResults ps⟩

/-- Another member, unless it is there. -/
def add (a : Alternatives) (p : Predicate) : Alternatives :=
  if a.members.any p.same then a else ⟨a.members ++ [p]⟩

/-- The first member, or one more. -/
def extend (found : Option Alternatives) (p : Predicate) : Alternatives :=
  match found with
  | some a => a.add p
  | none => ⟨[p]⟩

/-- Equality as sets. -/
def same (a b : Alternatives) : Bool :=
  (a.members.all fun p => b.members.any p.same) && (b.members.all fun q => a.members.any q.same)

def display (a : Alternatives) : String :=
  Text.joined " || " (a.members.map Predicate.display)

/-! ### Members one by one -/

theorem ofList_concat (ps : List Predicate) (p : Predicate) :
    ofList (ps ++ [p]) = (ofList ps).add p := by
  have kept : (ofList ps).members.any p.same = true ↔
      p.forgetResults ∈ ps.map Predicate.forgetResults := by
    rw [← mem_map_distinctBy, List.any_eq_true, List.mem_map]
    exact exists_congr fun q => and_congr_right fun _ => beq_iff_eq.trans eq_comm
  unfold add
  rw [ofList, distinctBy_concat]
  by_cases h : p.forgetResults ∈ ps.map Predicate.forgetResults
  · rw [if_pos h, if_pos (kept.mpr h)]
    rfl
  · rw [if_neg h, if_neg (mt kept.mp h)]
    rfl

theorem foldl_extend_ofList (ps qs : List Predicate) :
    qs.foldl (fun found q => some (extend found q)) (some (ofList ps)) =
      some (ofList (ps ++ qs)) := by
  induction qs generalizing ps with
  | nil => rw [List.append_nil, List.foldl_nil]
  | cons q qs ih =>
    rw [List.foldl_cons, extend, ← ofList_concat, ih, List.append_assoc]
    rfl

end Alternatives

namespace Constraint

def predicate? : Constraint → Option Predicate
  | .atom a => some ⟨a, none⟩
  | .guarded a g => some ⟨a, some g⟩
  | _ => none

/-- Every predicate of a constraint, guards included: of two operands the right one comes
first, and a predicate comes before those of its guard. -/
def predicates : Constraint → List Predicate
  | .connect l _ r => r.predicates ++ l.predicates
  | .atom a => [⟨a, none⟩]
  | .guarded a g => ⟨a, some g⟩ :: g.predicates
  | _ => []

/-! ## Alternatives -/

/-- The number of nodes of a tree of connectives. -/
def size : Constraint → Nat
  | .connect l _ r => l.size + r.size + 1
  | _ => 1

theorem size_pos (c : Constraint) : 0 < c.size := by cases c <;> simp [size]

/-- Take the constraints of a worklist apart. The operands of a disjunction take its place, the
left one in front, and each looked-up predicate joins what is found. Anything else leaves
nothing. -/
def collapse (found : Option Alternatives) : List Constraint → Option Alternatives
  | [] => found
  | .connect l .or r :: rest => collapse found (l :: r :: rest)
  | c :: rest =>
    match c.predicate? with
    | some p => if p.isLookup then collapse (some (.extend found p)) rest else none
    | none => none
termination_by worklist => worklist.foldr (fun c n => c.size + n) 0
decreasing_by
  · simp only [List.foldr_cons, size]
    omega
  · simp only [List.foldr_cons]
    exact Nat.lt_add_of_pos_left c.size_pos

/-- The alternatives a disjunction offers whose leaves are all looked-up predicates. -/
def alternatives? (c : Constraint) : Option Alternatives := collapse none [c]

/-- `p₁ || p₂ || …`, nested to the left. -/
def anyOf? : List Predicate → Option Constraint
  | [] => none
  | p :: ps => some (ps.foldl (fun c q => .connect c .or q.toConstraint) p.toConstraint)

/-! ## Trees of disjunctions -/

/-- The leaves of a disjunction whose leaves are all looked-up predicates. -/
def disjuncts? : Constraint → Option (List Predicate)
  | .connect l .or r =>
    match l.disjuncts?, r.disjuncts? with
    | some ls, some rs => some (ls ++ rs)
    | _, _ => none
  | .atom a => if a.isLookup then some [⟨a, none⟩] else none
  | .guarded a g => if a.isLookup then some [⟨a, some g⟩] else none
  | _ => none

/-- A tree of disjunctions over looked-up predicates, which are its leaves from left to right. -/
inductive Disjoins : Constraint → List Predicate → Prop
  | leaf (p : Predicate) (lookup : p.isLookup = true) : Disjoins p.toConstraint [p]
  | or {l r : Constraint} {ls rs : List Predicate} (left : Disjoins l ls)
      (right : Disjoins r rs) : Disjoins (.connect l .or r) (ls ++ rs)

/-- Just the trees of disjunctions have disjuncts. -/
theorem disjuncts?_eq_some_iff {c : Constraint} {ps : List Predicate} :
    c.disjuncts? = some ps ↔ c.Disjoins ps := by
  constructor
  · intro h
    induction c generalizing ps with
    | connect l op r ihl ihr =>
      cases op with
      | or =>
        unfold disjuncts? at h
        split at h
        next hl hr =>
          cases h
          exact .or (ihl hl) (ihr hr)
        next => cases h
      | _ => cases h
    | atom a =>
      simp only [disjuncts?, Option.ite_none_right_eq_some, Option.some.injEq] at h
      obtain ⟨lookup, rfl⟩ := h
      exact .leaf ⟨a, none⟩ lookup
    | guarded a g _ =>
      simp only [disjuncts?, Option.ite_none_right_eq_some, Option.some.injEq] at h
      obtain ⟨lookup, rfl⟩ := h
      exact .leaf ⟨a, some g⟩ lookup
    | _ => cases h
  · intro h
    induction h with
    | leaf p lookup =>
      obtain ⟨a, guard⟩ := p
      cases guard <;> exact if_pos lookup
    | or _ _ ihl ihr => simp only [disjuncts?, ihl, ihr]

theorem Disjoins.ne_nil {c : Constraint} {ps : List Predicate} (tree : c.Disjoins ps) :
    ps ≠ [] := by
  induction tree with
  | leaf p _ => exact List.cons_ne_nil p []
  | or _ _ ihl _ => exact List.append_ne_nil_of_left_ne_nil ihl _

/-- A tree at the front of the worklist adds its disjuncts from left to right, and nothing is
left if it has none. -/
theorem collapse_cons (c : Constraint) (found : Option Alternatives) (rest : List Constraint) :
    collapse found (c :: rest) =
      match c.disjuncts? with
      | some ps => collapse (ps.foldl (fun found p => some (.extend found p)) found) rest
      | none => none := by
  induction c generalizing found rest with
  | connect l op r ihl ihr =>
    cases op with
    | or =>
      -- the operands lie in front of the rest, so each is taken apart by its own hypothesis
      rw [collapse, ihl, disjuncts?]
      cases l.disjuncts? with
      | none => rfl
      | some ls =>
        simp only [ihr]
        cases r.disjuncts? with
        | none => rfl
        | some rs => simp only [List.foldl_append]
    | _ => simp [collapse, disjuncts?, predicate?]
  | atom a =>
    by_cases lookup : a.isLookup = true <;>
      simp [collapse, disjuncts?, predicate?, Predicate.isLookup, lookup]
  | guarded a g _ =>
    by_cases lookup : a.isLookup = true <;>
      simp [collapse, disjuncts?, predicate?, Predicate.isLookup, lookup]
  | _ => simp [collapse, disjuncts?, predicate?]

/-- The alternatives are the disjuncts, each kept once. -/
theorem alternatives?_eq (c : Constraint) :
    c.alternatives? = c.disjuncts?.map Alternatives.ofList := by
  rw [alternatives?, collapse_cons]
  cases h : c.disjuncts? with
  | none => rfl
  | some ps =>
    cases ps with
    | nil => exact absurd rfl (disjuncts?_eq_some_iff.mp h).ne_nil
    | cons p ps =>
      change collapse (ps.foldl _ (some (Alternatives.ofList [p]))) [] = _
      rw [Alternatives.foldl_extend_ofList, collapse]
      rfl

end Constraint

end Misuse
