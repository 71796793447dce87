import Misuse.Automaton
import Misuse.Proofs.Walks

/-!
# Reachable states

A path leads from a declared initial state along transitions to declared states (`Reaches`). The
walk over the automaton visits exactly the states that paths lead to (`mem_reachable_iff`); what
the initial states and the transitions name without declaring it is not on the way. Declaring a
state again changes its flag only, so no state is listed twice however an automaton is built
(`nodup_ids_ofParts`), and then the unreachable states are those that no path leads to, in order of
declaration (`unreachable_of_declared`).
-/

namespace Misuse

namespace Automaton

/-! ## Declaring one by one -/

/-- What an automaton is built from. -/
inductive Part where
  | state (id : String) (accepting : Bool)
  | initial (id : String)
  | transition (source : String) (label : List Signature) (target : String)
  deriving DecidableEq, Repr

def add (a : Automaton) : Part → Automaton
  | .state id accepting => a.addState id accepting
  | .initial id => a.addInitial id
  | .transition source label target => a.addTransition source label target

def ofParts (parts : List Part) : Automaton := parts.foldl add empty

/-- The declared states, in order of declaration. -/
def ids (a : Automaton) : List String := a.states.map State.id

theorem ids_setAccepting (id : String) (accepting : Bool) (states : List State) :
    (setAccepting id accepting states).map State.id =
      if id ∈ states.map State.id then states.map State.id else states.map State.id ++ [id] := by
  induction states with
  | nil => rfl
  | cons s states ih =>
    rw [setAccepting]
    by_cases here : s.id = id
    · simp [here]
    · simp only [beq_iff_eq, here, ↓reduceIte, List.map_cons, ih, List.mem_cons, Ne.symm here,
        false_or]
      split <;> rfl

theorem nodup_ids_add {a : Automaton} (once : a.ids.Nodup) (part : Part) : (a.add part).ids.Nodup := by
  cases part with
  | state id accepting =>
    rw [add, ids, addState, ids_setAccepting]
    split
    next => exact once
    next new =>
      have first : (id :: a.ids).Nodup := List.nodup_cons.mpr ⟨new, once⟩
      exact (List.perm_append_singleton id a.ids).nodup_iff.mpr first
  | initial _ => exact once
  | transition _ _ _ => exact once

theorem nodup_ids_ofParts (parts : List Part) : (ofParts parts).ids.Nodup := by
  have run : ∀ a : Automaton, a.ids.Nodup → (parts.foldl add a).ids.Nodup := by
    induction parts with
    | nil => exact fun _ once => once
    | cons part parts ih => exact fun a once => ih _ (nodup_ids_add once part)
  exact run empty List.nodup_nil

/-! ## Paths -/

variable (a : Automaton)

/-- A path leads to the state: from a declared initial state, along transitions to declared
states. -/
inductive Reaches : String → Prop
  | start {p : String} (marked : p ∈ a.initial) (declared : a.declares p = true) : Reaches p
  | step {t : Transition} (path : Reaches t.source) (ht : t ∈ a.transitions)
      (declared : a.declares t.target = true) : Reaches t.target

variable {a}

theorem mem_successors_iff (p q : String) :
    q ∈ a.successors p ↔
      (∃ t ∈ a.transitions, t.source = p ∧ t.target = q) ∧ a.declares q = true := by
  simp only [successors, outgoing, List.mem_filter, List.mem_map, beq_iff_eq, and_assoc]

/-- Paths are chains of successors. -/
theorem reaches_iff (q : String) :
    a.Reaches q ↔ ∃ p ∈ a.initial.filter a.declares,
      Relation.ReflTransGen (fun p q => q ∈ a.successors p) p q := by
  constructor
  · intro h
    induction h with
    | start marked declared => exact ⟨_, List.mem_filter.mpr ⟨marked, declared⟩, .refl⟩
    | step _ ht declared ih =>
      obtain ⟨p, hp, chain⟩ := ih
      exact ⟨p, hp, chain.tail ((mem_successors_iff _ _).mpr ⟨⟨_, ht, rfl, rfl⟩, declared⟩)⟩
  · rintro ⟨p, hp, chain⟩
    induction chain with
    | refl =>
      obtain ⟨marked, declared⟩ := List.mem_filter.mp hp
      exact .start marked declared
    | tail _ last ih =>
      obtain ⟨⟨t, ht, rfl, rfl⟩, declared⟩ := (mem_successors_iff _ _).mp last
      exact .step ih ht declared

/-! ## The walk -/

/-- Each transition leads the walk to one successor at most. -/
theorem length_successors_le (p : String) : (a.successors p).length ≤
    ((a.transitions.map fun t => (t.source, t.target)).filter fun e => decide (e.1 = p)).length := by
  have followed : ((a.transitions.map fun t => (t.source, t.target)).filter fun e =>
      decide (e.1 = p)).length = (a.outgoing p).length := by
    rw [List.filter_map, List.length_map]
    rfl
  rw [followed, ← List.length_map (f := Transition.target)]
  exact List.length_filter_le ..

/-- **The walk visits exactly the states that paths lead to.** -/
theorem mem_reachable_iff (q : String) : q ∈ a.reachable ↔ a.Reaches q := by
  have edges : a.transitions.length = (a.transitions.map fun t => (t.source, t.target)).length :=
    (List.length_map _).symm
  rw [reachable, edges, mem_walk_iff length_successors_le, reaches_iff]

instance (q : String) : Decidable (a.Reaches q) := decidable_of_iff _ (mem_reachable_iff q)

/-! ## Unreachable states -/

theorem unreachableIn_eq (reached : List String) {states : List State}
    (once : (states.map State.id).Nodup) :
    unreachableIn reached states =
      (states.map State.id).filter fun q => decide (q ∉ reached) := by
  induction states with
  | nil => rfl
  | cons s states ih =>
    obtain ⟨new, rest⟩ := List.nodup_cons.mp once
    -- without a later declaration of the same state only the walk decides
    have last : (states.any fun t => t.id == s.id) = false := by
      simpa [List.mem_map] using new
    rw [unreachableIn, ih rest, last, List.map_cons, List.filter_cons]
    by_cases here : s.id ∈ reached <;> simp [here]

/-- **The unreachable states are those that no path leads to.** No sequence of declarations lists a
state twice. In an automaton that lists each of its states once, the unreachable ones are just the
declared states that no path of transitions between declared states leads to from a declared initial
state, in order of declaration. What the initial states and the transitions name without declaring
it plays no part. -/
theorem unreachable_of_declared :
    (∀ parts : List Part, (ofParts parts).ids.Nodup) ∧
      ∀ a : Automaton, a.ids.Nodup →
        a.unreachable = a.ids.filter fun q => decide (¬ a.Reaches q) := by
  refine ⟨nodup_ids_ofParts, fun a once => ?_⟩
  rw [unreachable, unreachableIn_eq a.reachable once]
  simp only [mem_reachable_iff]
  rfl

/-- Paths through states that are not declared do not count, whether they begin or go on there. -/
theorem unreachable_of_declared_detour :
    let a := ofParts [.initial "gone", .state "lost" true, .state "new" false, .initial "new",
      .transition "gone" [] "lost", .transition "new" [] "ready", .transition "new" [] "elsewhere",
      .transition "elsewhere" [] "lost", .state "ready" true, .state "lost" false]
    a.ids.Nodup ∧ a.unreachable = ["lost"] ∧ ¬ a.Reaches "lost" ∧ a.Reaches "ready" := by
  intro a
  obtain ⟨built, listed⟩ := unreachable_of_declared
  have once : a.ids.Nodup := built _
  have paths : a.unreachable = a.ids.filter fun q => decide (¬ a.Reaches q) := listed a once
  have lost : ¬ a.Reaches "lost" := by decide +kernel
  have ready : a.Reaches "ready" := by decide +kernel
  refine ⟨once, ?_, lost, ready⟩
  rw [paths]
  decide +kernel

end Automaton

end Misuse
