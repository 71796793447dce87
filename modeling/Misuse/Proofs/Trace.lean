import Misuse.Tracked
import Misuse.Proofs.Blocks

/-!
# Calls in order

A list of calls advances an object step by step (`Rule.stepsAlong`); where the list is cut
does not matter (`stepsAlong_append`). Applying the queue of an object is this, whatever
was applied before (`applyQueued_eq`). What a step records or asks names its object.
-/

namespace Misuse

namespace Rule

variable (r : Rule) (m : Matcher) (object : String)

/-- The states after some calls, from given ones: the left fold of `advance`. -/
def statesAlong (current : List String) (calls : List Call) : List String :=
  calls.foldl (fun states call => (r.advance m object states call).states) current

/-- The steps of some calls, from given states. -/
def stepsAlong : List String → List Call → List Step
  | _, [] => []
  | current, call :: calls =>
    r.advance m object current call
      :: stepsAlong (r.advance m object current call).states calls

theorem statesAlong_append (current : List String) (calls more : List Call) :
    r.statesAlong m object current (calls ++ more) =
      r.statesAlong m object (r.statesAlong m object current calls) more :=
  List.foldl_append ..

theorem stepsAlong_append (current : List String) (calls more : List Call) :
    r.stepsAlong m object current (calls ++ more) =
      r.stepsAlong m object current calls
        ++ r.stepsAlong m object (r.statesAlong m object current calls) more := by
  induction calls generalizing current with
  | nil => rfl
  | cons call calls ih => simp [stepsAlong, statesAlong, ih]

/-- The violations of some calls, from the initial states. -/
def violationsOf (calls : List Call) : List Violation :=
  (r.stepsAlong m object r.automaton.initial calls).flatMap Step.violations

/-! ## The object of a step -/

theorem object_of_mem_queries {current : List String} {call : Call} {q : Query}
    (h : q ∈ (r.advance m object current call).queries) : q.object = object := by
  unfold advance at h
  split at h
  next => cases h
  next f fs _ =>
    obtain ⟨g, -, hq⟩ := List.mem_flatMap.mp ((mem_distinct _ _).mp h)
    rcases List.mem_append.mp hq with hq | hq
    · obtain ⟨p, -, rfl⟩ := List.mem_map.mp hq
      rfl
    · split at hq
      · rw [List.mem_singleton.mp hq]
      · cases hq

/-- Bans and misplaced calls are recorded for the object that is advanced. -/
theorem typestate_of_mem_violations {current : List String} {call : Call} {v : Violation}
    (h : v ∈ (r.advance m object current call).violations) :
    v.object = some object ∧ (v.kind = .ordering ∨ v.kind = .forbiddenCall) := by
  have banned : v ∈ (r.banRecord? m object call).toList →
      v.object = some object ∧ (v.kind = .ordering ∨ v.kind = .forbiddenCall) := by
    intro hv
    obtain ⟨b, -, rfl⟩ := Option.map_eq_some_iff.mp (Option.mem_toList.mp hv)
    exact ⟨rfl, .inr rfl⟩
  unfold advance at h
  split at h
  next =>
    rcases List.mem_append.mp h with hv | hv
    · exact banned hv
    · split at hv
      · rw [List.mem_singleton.mp hv]
        exact ⟨rfl, .inl rfl⟩
      · cases hv
  next => exact banned h

variable {r m object} {current : List String} {calls : List Call}

theorem exists_advance_of_mem_stepsAlong {step : Step}
    (h : step ∈ r.stepsAlong m object current calls) :
    ∃ states call, step = r.advance m object states call := by
  induction calls generalizing current with
  | nil => cases h
  | cons call calls ih =>
    rcases List.mem_cons.mp h with rfl | h
    · exact ⟨_, _, rfl⟩
    · exact ih h

theorem typestate_of_mem_stepsAlong {v : Violation}
    (h : v ∈ (r.stepsAlong m object current calls).flatMap Step.violations) :
    v.object = some object ∧ (v.kind = .ordering ∨ v.kind = .forbiddenCall) := by
  obtain ⟨step, hs, hv⟩ := List.mem_flatMap.mp h
  obtain ⟨states, call, rfl⟩ := exists_advance_of_mem_stepsAlong hs
  exact r.typestate_of_mem_violations m object hv

end Rule

namespace Tracked

/-- The steps of the queued calls. -/
def queuedSteps (m : Matcher) (o : Tracked) : List Step :=
  o.rule.stepsAlong m o.id o.states o.queued

theorem foldl_applyCall (m : Matcher) (calls : List Call) (p : Progress) :
    calls.foldl (applyCall m) p =
      { object :=
          { p.object with
            states := p.object.rule.statesAlong m p.object.id p.object.states calls
            calls := p.object.calls ++ calls
            due := p.object.due ++
              (p.object.rule.stepsAlong m p.object.id p.object.states calls).flatMap
                Step.triggers }
        queries := p.queries ++
          (p.object.rule.stepsAlong m p.object.id p.object.states calls).flatMap Step.queries
        violations := p.violations ++
          (p.object.rule.stepsAlong m p.object.id p.object.states calls).flatMap
            Step.violations } := by
  induction calls generalizing p with
  | nil => simp [Rule.statesAlong, Rule.stepsAlong]
  | cons call calls ih =>
    simp [ih, applyCall, Rule.statesAlong, Rule.stepsAlong]

/-- Applying the queue appends what its steps bring. -/
theorem applyQueued_eq (m : Matcher) (o : Tracked) :
    o.applyQueued m =
      { object :=
          { o with
            states := o.rule.statesAlong m o.id o.states o.queued
            calls := o.calls ++ o.queued
            queued := []
            due := o.due ++ (o.queuedSteps m).flatMap Step.triggers }
        queries := (o.queuedSteps m).flatMap Step.queries
        violations := (o.queuedSteps m).flatMap Step.violations } := by
  unfold applyQueued
  rw [foldl_applyCall]
  simp [queuedSteps]

theorem object_of_mem_queries {m : Matcher} {o : Tracked} {q : Query}
    (h : q ∈ (o.applyQueued m).queries) : q.object = o.id := by
  rw [applyQueued_eq] at h
  obtain ⟨step, hs, hq⟩ := List.mem_flatMap.mp h
  obtain ⟨states, call, rfl⟩ := Rule.exists_advance_of_mem_stepsAlong hs
  exact o.rule.object_of_mem_queries m o.id hq

theorem typestate_of_mem_violations {m : Matcher} {o : Tracked} {v : Violation}
    (h : v ∈ (o.applyQueued m).violations) :
    v.object = some o.id ∧ (v.kind = .ordering ∨ v.kind = .forbiddenCall) := by
  rw [applyQueued_eq] at h
  exact Rule.typestate_of_mem_stepsAlong h

end Tracked

end Misuse
