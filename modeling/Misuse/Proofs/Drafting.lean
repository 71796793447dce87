import Mathlib.Data.List.Basic
import Mathlib.Data.List.Induction
import Misuse.Rule.Draft.Indexed

/-!
# Drafting step by step

A draft is made in steps (`Draft.ofSteps`). A draft with positions enters the scopes that were left
open at the positions it has noted, each counted when its effect was added (`Indexed.Stands`). That
comes to the scopes which a plain draft finds when it is finished, so both give the same rule
(`Indexed.finish_ofSteps`).
-/

namespace Misuse.Draft

inductive Step where
  | declare (name type : String)
  | ban (m : Signature) (alternatives : List Signature)
  | state (id : String) (accepting : Bool)
  | initialState (id : String)
  | transition (source : String) (label : List Signature) (target : String)
  | constrain (c : Constraint)
  | require (p : Predicate)
  | requireAny (ps : List Predicate)
  | throws (m : Signature) (exception : String)
  | establish (p : Predicate) (scope : Scope)
  | retract (p : Predicate) (scope : Scope)
  deriving DecidableEq, Repr

def take (d : Draft) : Step → Draft
  | .declare name type => d.declare name type
  | .ban m alternatives => d.ban m alternatives
  | .state id accepting => d.state id accepting
  | .initialState id => d.initialState id
  | .transition source label target => d.transition source label target
  | .constrain c => d.constrain c
  | .require p => d.require p
  | .requireAny ps => d.requireAny ps
  | .throws m exception => d.throws m exception
  | .establish p scope => d.establish p scope
  | .retract p scope => d.retract p scope

def ofSteps (className : String) (steps : List Step) : Draft := steps.foldl take (start className)

theorem ofSteps_concat (className : String) (steps : List Step) (s : Step) :
    ofSteps className (steps ++ [s]) = (ofSteps className steps).take s := List.foldl_concat ..

namespace Indexed

def take (b : Indexed) : Step → Indexed
  | .declare name type => b.declare name type
  | .ban m alternatives => b.ban m alternatives
  | .state id accepting => b.state id accepting
  | .initialState id => b.initialState id
  | .transition source label target => b.transition source label target
  | .constrain c => b.constrain c
  | .require p => b.require p
  | .requireAny ps => b.requireAny ps
  | .throws m exception => b.throws m exception
  | .establish p scope => b.establish p scope
  | .retract p scope => b.retract p scope

def ofSteps (className : String) (steps : List Step) : Indexed :=
  steps.foldl take (start className)

theorem ofSteps_concat (className : String) (steps : List Step) (s : Step) :
    ofSteps className (steps ++ [s]) = (ofSteps className steps).take s := List.foldl_concat ..

/-! ## Effects with open scopes -/

/-- An effect as it stands before the automaton is finished. -/
def standing : Predicate × Scope → Effect
  | (p, .accepting) => ⟨p, none⟩
  | (p, .states ids) => ⟨p, some (Sorted.ofList ids)⟩
  | (p, .after _) => ⟨p, some []⟩

/-- What is left open in an effect at a position. -/
def openAt (position : Nat) : Predicate × Scope → List (Nat × List Signature)
  | (_, .after methods) => [(position, methods)]
  | _ => []

/-- What is left open in a list of effects, with the positions. -/
def openIn (effects : List (Predicate × Scope)) : List (Nat × List Signature) :=
  effects.zipIdx.flatMap fun (e, i) => openAt i e

theorem openIn_concat (effects : List (Predicate × Scope)) (e : Predicate × Scope) :
    openIn (effects ++ [e]) = openIn effects ++ openAt effects.length e := by
  simp [openIn, List.zipIdx_append]

/-- An effect that is written out, in a finished automaton. -/
def resolved (a : Automaton) : Predicate × Scope → Effect
  | (p, scope) => ⟨p, scope.resolve a⟩

/-- To close what is open in the effect at a position is to resolve it. -/
theorem foldl_close_openAt (a : Automaton) (before after : List Effect) (e : Predicate × Scope) :
    (openAt before.length e).foldl (close a) (before ++ standing e :: after) =
      before ++ resolved a e :: after := by
  obtain ⟨p, scope⟩ := e
  cases scope with
  | accepting => rfl
  | states ids => rfl
  | after methods =>
    exact List.modifyTailIdx_add (List.modifyHead _) 0 before (standing (p, .after methods) :: after)

/-- Closing all that is open resolves every effect, and only reaches as far as there are effects. -/
theorem foldl_close_openIn (a : Automaton) (effects : List (Predicate × Scope))
    (after : List Effect) :
    (openIn effects).foldl (close a) (effects.map standing ++ after) =
      effects.map (resolved a) ++ after := by
  induction effects using List.reverseRecOn generalizing after with
  | nil => rfl
  | append_singleton effects e ih =>
    have last := foldl_close_openAt a (effects.map (resolved a)) after e
    rw [List.length_map] at last
    simp only [openIn_concat, List.foldl_append, List.map_append, List.map_singleton,
      List.append_assoc, List.singleton_append, ih]
    exact last

/-! ## The same rule -/

/-- A draft with positions is this draft, with the scopes that follow calls left open. -/
structure Stands (b : Indexed) (d : Draft) : Prop where
  rule : b.rule = { d.finish with effects := d.effects.map standing }
  opened : b.opened = openIn d.effects

namespace Stands

variable {b : Indexed} {d : Draft}

theorem start (className : String) : Stands (.start className) (Draft.start className) := ⟨rfl, rfl⟩

theorem establish (h : b.Stands d) (p : Predicate) (scope : Scope) :
    (b.establish p scope).Stands (d.establish p scope) := by
  have length : b.rule.effects.length = d.effects.length := by rw [h.rule, List.length_map]
  constructor
  · cases scope <;>
      simp [Indexed.establish, push, openNext, h.rule, Draft.establish, Draft.finish, standing]
  · cases scope <;>
      simp [Indexed.establish, push, openNext, h.opened, Draft.establish, openIn_concat, openAt,
        length]

theorem constrain (h : b.Stands d) (c : Constraint) : (b.constrain c).Stands (d.constrain c) := by
  constructor
  · simp [Indexed.constrain, h.rule, Draft.constrain, Draft.finish]
  · exact h.opened

theorem requireAny (h : b.Stands d) (ps : List Predicate) :
    (b.requireAny ps).Stands (d.requireAny ps) := by
  unfold Indexed.requireAny Draft.requireAny
  cases Constraint.anyOf? ps with
  | some c => exact h.constrain c
  | none => exact h

theorem take (h : b.Stands d) (s : Step) : (b.take s).Stands (d.take s) := by
  cases s with
  | constrain c => exact h.constrain c
  | require p => exact h.constrain p.toConstraint
  | requireAny ps => exact h.requireAny ps
  | establish p scope => exact h.establish p scope
  | retract p scope => exact h.establish p.negate scope
  | declare name type =>
    exact ⟨by simp [Indexed.take, declare, h.rule, Draft.take, Draft.declare, Draft.finish], h.opened⟩
  | ban m alternatives =>
    exact ⟨by simp [Indexed.take, ban, h.rule, Draft.take, Draft.ban, Draft.finish], h.opened⟩
  | state id accepting =>
    exact ⟨by simp [Indexed.take, state, h.rule, Draft.take, Draft.state, Draft.finish], h.opened⟩
  | initialState id =>
    exact ⟨by simp [Indexed.take, initialState, h.rule, Draft.take, Draft.initialState, Draft.finish],
      h.opened⟩
  | transition source label target =>
    exact ⟨by simp [Indexed.take, transition, h.rule, Draft.take, Draft.transition, Draft.finish],
      h.opened⟩
  | throws m exception =>
    exact ⟨by simp [Indexed.take, throws, h.rule, Draft.take, Draft.throws, Draft.finish], h.opened⟩

theorem finish (h : b.Stands d) : b.finish = d.finish := by
  have closed := foldl_close_openIn d.automaton d.effects []
  rw [List.append_nil, List.append_nil] at closed
  rw [Indexed.finish, h.rule, h.opened]
  exact congrArg (fun effects => { d.finish with effects }) closed

end Stands

theorem stands_ofSteps (className : String) (steps : List Step) :
    (ofSteps className steps).Stands (Draft.ofSteps className steps) := by
  induction steps using List.reverseRecOn with
  | nil => exact .start className
  | append_singleton steps s ih =>
    rw [ofSteps_concat, Draft.ofSteps_concat]
    exact ih.take s

/-- **Both kinds of draft give the same rule.** -/
theorem finish_ofSteps (className : String) (steps : List Step) :
    (ofSteps className steps).finish = (Draft.ofSteps className steps).finish :=
  (stands_ofSteps className steps).finish

end Indexed

end Misuse.Draft
