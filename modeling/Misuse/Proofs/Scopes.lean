import Mathlib.Data.List.Forall2
import Misuse.Proofs.Drafting

/-!
# Scopes of drafted effects

Of the steps of a draft, some build the automaton and some add effects; the others touch neither.
The automaton depends on the steps of the first kind (`automaton_ofSteps`), the effects on those of
the second (`effects_ofSteps`), and how they alternate does not matter: the scope of an effect is
found in the finished automaton, whichever steps came first (`scopes_of_interleaved`).
-/

namespace Misuse

/-! ## Labels that are meant -/

namespace Transition

/-- The label lists just these methods, or holds the only one of them; what it binds results to
does not matter. An empty label means nothing. -/
def Means (t : Transition) (methods : List Signature) : Prop :=
  t.label ≠ [] ∧ (List.Forall₂ (fun entry m => entry.same m = true) t.label methods ∨
    ∃ m, methods = [m] ∧ ∃ entry ∈ t.label, m.same entry = true)

theorem means_iff (t : Transition) (methods : List Signature) :
    t.Means methods ↔ Automaton.labelMeets t.label methods = true := by
  have listed : List.Forall₂ (fun entry m => Signature.same entry m = true) t.label methods ↔
      t.label.map Signature.forgetResult = methods.map Signature.forgetResult := by
    rw [← List.forall₂_eq_eq_eq, List.forall₂_map_left_iff, List.forall₂_map_right_iff]
    simp only [Signature.same, beq_iff_eq]
  unfold Automaton.labelMeets
  rw [Means, listed, Bool.and_eq_true, Bool.or_eq_true, beq_iff_eq, Bool.not_eq_true',
    List.isEmpty_eq_false_iff]
  refine and_congr_right fun _ => or_congr_right ?_
  clear listed
  cases methods with
  | nil => simp
  | cons m rest => cases rest <;> simp

end Transition

theorem Automaton.increasing_statesAfter (a : Automaton) (methods : List Signature) :
    Sorted.Increasing (a.statesAfter methods) := by
  unfold statesAfter
  split
  · exact List.Pairwise.nil
  · exact Sorted.increasing_ofList _

theorem Automaton.mem_statesAfter_iff (a : Automaton) (methods : List Signature) (x : String) :
    x ∈ a.statesAfter methods ↔ ∃ t ∈ a.transitions, t.Means methods ∧ t.target = x := by
  unfold statesAfter
  split
  next none =>
    -- no label but the empty one lists no methods
    rw [List.isEmpty_iff.mp none]
    refine ⟨nofun, ?_⟩
    rintro ⟨t, -, ⟨labelled, means⟩, -⟩
    rcases means with listed | ⟨m, only, -⟩
    · exact absurd (List.forall₂_nil_right_iff.mp listed) labelled
    · cases only
  next =>
    simp only [Sorted.mem_ofList, List.mem_map, List.mem_filter, Transition.means_iff, and_assoc]

/-! ## Scopes in an automaton -/

/-- What a scope comes to in an automaton. -/
inductive Scope.Stands (a : Automaton) : Scope → Option (List String) → Prop
  | accepting : Stands a .accepting none
  | states {ids states : List String} (increasing : Sorted.Increasing states)
      (given : ∀ x, x ∈ states ↔ x ∈ ids) : Stands a (.states ids) (some states)
  | after {methods : List Signature} {states : List String} (increasing : Sorted.Increasing states)
      (follow : ∀ x, x ∈ states ↔ ∃ t ∈ a.transitions, t.Means methods ∧ t.target = x) :
      Stands a (.after methods) (some states)

theorem Scope.stands_resolve (a : Automaton) (scope : Scope) : scope.Stands a (scope.resolve a) := by
  cases scope with
  | accepting => exact .accepting
  | states ids => exact .states (Sorted.increasing_ofList ids) (Sorted.mem_ofList · ids)
  | after methods => exact .after (a.increasing_statesAfter methods) (a.mem_statesAfter_iff methods)

namespace Draft

/-! ## Kinds of steps -/

/-- What a step does to the automaton. -/
def Step.build (a : Automaton) : Step → Automaton
  | .state id accepting => a.addState id accepting
  | .initialState id => (if a.declares id then a else a.addState id false).addInitial id
  | .transition source label target => a.addTransition source label target
  | _ => a

/-- The predicate that a step adds, with its scope. -/
def Step.effect? : Step → Option (Predicate × Scope)
  | .establish p scope => some (p, scope)
  | .retract p scope => some (p.negate, scope)
  | _ => none

/-- The step declares a state or a transition. -/
def Step.isBuilding : Step → Bool
  | .state _ _ | .initialState _ | .transition _ _ _ => true
  | _ => false

/-- The step establishes or retracts a predicate. -/
def Step.isEffect : Step → Bool
  | .establish _ _ | .retract _ _ => true
  | _ => false

theorem automaton_requireAny (d : Draft) (ps : List Predicate) :
    (d.requireAny ps).automaton = d.automaton := by
  unfold requireAny
  split <;> rfl

theorem effects_requireAny (d : Draft) (ps : List Predicate) :
    (d.requireAny ps).effects = d.effects := by
  unfold requireAny
  split <;> rfl

theorem automaton_take (d : Draft) (s : Step) : (d.take s).automaton = s.build d.automaton := by
  cases s with
  | requireAny ps => exact d.automaton_requireAny ps
  | _ => rfl

theorem effects_take (d : Draft) (s : Step) :
    (d.take s).effects = d.effects ++ s.effect?.toList := by
  cases s with
  | requireAny ps => exact (d.effects_requireAny ps).trans (List.append_nil _).symm
  | establish p scope => rfl
  | retract p scope => rfl
  | _ => exact (List.append_nil _).symm

variable (className : String)

/-- **The automaton of a draft depends on the steps that build it.** -/
theorem automaton_ofSteps (steps : List Step) :
    (ofSteps className steps).automaton = (steps.filter Step.isBuilding).foldl Step.build .empty := by
  induction steps using List.reverseRecOn with
  | nil => rfl
  | append_singleton steps s ih =>
    rw [ofSteps_concat, automaton_take, ih, List.filter_append, List.foldl_append]
    cases s <;> rfl

/-- **The effects of a draft are those that its steps add.** -/
theorem effects_ofSteps (steps : List Step) :
    (ofSteps className steps).effects = (steps.filter Step.isEffect).filterMap Step.effect? := by
  induction steps using List.reverseRecOn with
  | nil => rfl
  | append_singleton steps s ih =>
    rw [ofSteps_concat, effects_take, ih, List.filter_append, List.filterMap_append]
    cases s <;> rfl

/-! ## Scopes in the finished automaton -/

/-- A finished draft has the effects that were added, each with what its scope comes to. -/
theorem stands_finish (d : Draft) :
    List.Forall₂ (fun added e => e.predicate = added.1 ∧
      added.2.Stands d.automaton e.scope) d.effects d.finish.effects := by
  have finished : d.finish.effects = d.effects.map (Indexed.resolved d.automaton) := rfl
  rw [finished, List.forall₂_map_right_iff, List.forall₂_same]
  exact fun added _ => ⟨rfl, added.2.stands_resolve d.automaton⟩

/-- **Scopes are found in the finished automaton.** Take two sequences of steps that build the
automaton by the same steps in the same order and add the same effects in the same order, however
these alternate, and whatever other steps lie between. With positions or without, the rules have one
automaton and one list of effects. These are the predicates that the steps add, in their order, and
each has its scope in that automaton: after certain calls it is just the targets of all transitions
whose label, which is not empty, lists these methods or holds the only one. -/
theorem scopes_of_interleaved (className' : String) {steps steps' : List Step}
    (building : steps.filter Step.isBuilding = steps'.filter Step.isBuilding)
    (effects : steps.filter Step.isEffect = steps'.filter Step.isEffect) :
    let r := (Indexed.ofSteps className steps).finish
    let r' := (Indexed.ofSteps className' steps').finish
    r = (ofSteps className steps).finish ∧ r' = (ofSteps className' steps').finish ∧
      r.automaton = r'.automaton ∧ r.effects = r'.effects ∧
      List.Forall₂ (fun added e => e.predicate = added.1 ∧ added.2.Stands r.automaton e.scope)
        (steps.filterMap Step.effect?) r.effects := by
  intro r r'
  have plain : r = (ofSteps className steps).finish := Indexed.finish_ofSteps className steps
  have plain' : r' = (ofSteps className' steps').finish := Indexed.finish_ofSteps className' steps'
  have automata : (ofSteps className steps).automaton = (ofSteps className' steps').automaton := by
    rw [automaton_ofSteps, automaton_ofSteps, building]
  have added : (ofSteps className steps).effects = (ofSteps className' steps').effects := by
    rw [effects_ofSteps, effects_ofSteps, effects]
  have all : (ofSteps className steps).effects = steps.filterMap Step.effect? := by
    rw [effects_ofSteps, List.filterMap_filter]
    refine List.filterMap_congr fun s _ => ?_
    cases s <;> rfl
  refine ⟨plain, plain', ?_, ?_, ?_⟩
  · rw [plain, plain']
    exact automata
  · rw [plain, plain']
    simp only [finish, automata, added]
  · rw [plain, ← all]
    exact stands_finish _

/-- A generator of keys, drafted with its effect in front and with its effect in the middle. -/
theorem scopes_of_interleaved_keyGenerator :
    let key : Predicate := .plain "generatedKey" [.self]
    let generate := Signature.ofParams "KeyGenerator.generateKey" []
    let steps : List Step := [.establish key (.after [generate]), .retract key .accepting,
      .initialState "start", .state "done" true, .transition "start" [generate] "done"]
    let steps' : List Step := [.initialState "start", .declare "key" "SecretKey",
      .establish key (.after [generate]), .state "done" true, .ban generate [],
      .transition "start" [generate] "done", .retract key .accepting]
    steps.filter Step.isBuilding = steps'.filter Step.isBuilding ∧
      steps.filter Step.isEffect = steps'.filter Step.isEffect ∧
      (Indexed.ofSteps "KeyGenerator" steps).finish.effects =
        (Indexed.ofSteps "Generator" steps').finish.effects ∧
      (Indexed.ofSteps "KeyGenerator" steps).finish.effects =
        [⟨key, some ["done"]⟩, ⟨key.negate, none⟩] := by
  intro key generate steps steps'
  have building : steps.filter Step.isBuilding = steps'.filter Step.isBuilding := by decide +kernel
  have effects : steps.filter Step.isEffect = steps'.filter Step.isEffect := by decide +kernel
  obtain ⟨-, -, -, same, -⟩ :=
    scopes_of_interleaved "KeyGenerator" "Generator" building effects
  exact ⟨building, effects, same, by decide +kernel⟩

end Draft

end Misuse
