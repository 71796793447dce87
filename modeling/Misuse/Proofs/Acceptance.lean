import Misuse.Rulebook

/-!
# Accepted rules

What it takes for `Rule.check` to find no defect (`check_eq_ok_iff`), part by part. Only rules
that pass the check get into a rulebook, so whatever a rulebook is made of, all its rules have
passed (`Rulebook.accepted_load`).
-/

namespace Misuse

/-- A sequence of checks passes if each of them does. -/
theorem Except.bind_eq_ok_iff {ε : Type} (first second : Except ε Unit) :
    (do first; second) = .ok () ↔ first = .ok () ∧ second = .ok () := by
  cases first with
  | ok _ => exact ⟨fun h => ⟨rfl, h⟩, fun h => h.2⟩
  | error e => exact ⟨nofun, nofun⟩

theorem Except.forM_eq_ok_iff {ε α : Type} (check : α → Except ε Unit) (as : List α) :
    as.forM check = .ok () ↔ ∀ a ∈ as, check a = .ok () := by
  induction as with
  | nil => simp [pure, Except.pure]
  | cons a as ih =>
    change (do check a; as.forM check) = .ok () ↔ _
    rw [bind_eq_ok_iff, ih, List.forall_mem_cons]

/-- What a search finds is there and fails the test. -/
theorem mem_of_find?_not {α : Type} {test : α → Bool} {as : List α} {a : α}
    (h : as.find? (fun a => !test a) = some a) : a ∈ as ∧ test a = false :=
  ⟨List.mem_of_find?_eq_some h, by simpa using List.find?_some h⟩

namespace Rule

variable {r : Rule}

/-! ## Parts of the check -/

theorem checkStates_eq_ok_iff :
    r.checkStates = .ok () ↔
      r.automaton.initial ≠ [] ∧ (∀ s ∈ r.referencedStates, r.automaton.declares s = true) ∧
        r.automaton.unreachable = [] := by
  unfold checkStates
  cases hi : r.automaton.initial with
  | nil => simp
  | cons s rest =>
    simp only [List.isEmpty_cons, Bool.false_eq_true, ↓reduceIte, ne_eq, reduceCtorEq,
      not_false_eq_true, true_and]
    cases hf : r.referencedStates.find? fun s => !r.automaton.declares s with
    | some s =>
      obtain ⟨hs, missing⟩ := mem_of_find?_not hf
      refine ⟨nofun, fun h => ?_⟩
      rw [h.1 s hs] at missing
      cases missing
    | none =>
      have declared : ∀ s ∈ r.referencedStates, r.automaton.declares s = true := by
        simpa using hf
      cases hu : r.automaton.unreachable with
      | nil => simpa using declared
      | cons _ _ => simp

theorem checkVars_eq_ok_iff :
    r.checkVars = .ok () ↔ ∀ x ∈ r.referencedVars, r.knows x = true := by
  unfold checkVars
  cases hf : r.referencedVars.find? fun x => !r.knows x with
  | some x =>
    obtain ⟨hx, missing⟩ := mem_of_find?_not hf
    refine ⟨nofun, fun h => ?_⟩
    rw [h x hx] at missing
    cases missing
  | none => simpa using hf

theorem checkPredicates_eq_ok_iff :
    r.checkPredicates = .ok () ↔ ∀ p ∈ r.checkedPredicates, r.checkPredicate p = .ok () :=
  Except.forM_eq_ok_iff r.checkPredicate r.checkedPredicates

/-- **A rule is accepted if each part of the check finds nothing.** -/
theorem check_eq_ok_iff (strict : Bool) :
    r.check strict = .ok () ↔
      r.checkStates = .ok () ∧ (strict = true → r.checkLabels = .ok ()) ∧ r.checkVars = .ok () ∧
        r.checkPredicates = .ok () := by
  unfold check
  cases strict with
  | true => simp [Except.bind_eq_ok_iff]
  | false => simp [Except.bind_eq_ok_iff]

/-- The rule has passed the check, strict or not. -/
def Accepted (r : Rule) : Prop := ∃ strict, r.check strict = .ok ()

namespace Accepted

variable (h : r.Accepted)
include h

theorem states : r.checkStates = .ok () := by
  obtain ⟨strict, h⟩ := h
  exact ((check_eq_ok_iff strict).mp h).1

theorem initial : r.automaton.initial ≠ [] := (checkStates_eq_ok_iff.mp h.states).1

theorem declares {s : String} (hs : s ∈ r.referencedStates) : r.automaton.declares s = true :=
  (checkStates_eq_ok_iff.mp h.states).2.1 s hs

theorem declares_initial {s : String} (hs : s ∈ r.automaton.initial) :
    r.automaton.declares s = true :=
  h.declares (List.mem_append_left _ (List.mem_append_left _ hs))

theorem declares_target {t : Transition} (ht : t ∈ r.automaton.transitions) :
    r.automaton.declares t.target = true :=
  h.declares (List.mem_append_left _ (List.mem_append_right _
    (List.mem_flatMap.mpr ⟨t, ht, by simp⟩)))

theorem knows {x : String} (hx : x ∈ r.referencedVars) : r.knows x = true := by
  obtain ⟨strict, h⟩ := h
  exact checkVars_eq_ok_iff.mp ((check_eq_ok_iff strict).mp h).2.2.1 x hx

theorem predicates {p : Predicate} (hp : p ∈ r.checkedPredicates) :
    r.checkPredicate p = .ok () := by
  obtain ⟨strict, h⟩ := h
  exact checkPredicates_eq_ok_iff.mp ((check_eq_ok_iff strict).mp h).2.2.2 p hp

end Accepted

end Rule

/-! ## Rulebooks -/

namespace Rulebook

/-- Every rule of the rulebook has passed the check. -/
def Accepted (b : Rulebook) : Prop := ∀ r ∈ b.rules, r.Accepted

variable {b : Rulebook}

theorem accepted_empty : empty.Accepted := nofun

theorem mem_of_mem_replaceIn {rule r : Rule} {rules : List Rule} (h : r ∈ replaceIn rule rules) :
    r = rule ∨ r ∈ rules := by
  induction rules with
  | nil => exact .inl (List.mem_singleton.mp h)
  | cons a rules ih =>
    unfold replaceIn at h
    split at h
    · exact (List.mem_cons.mp h).imp_right (List.mem_cons_of_mem _)
    · rcases List.mem_cons.mp h with rfl | h
      · exact .inr (List.mem_cons_self ..)
      · exact (ih h).imp_right (List.mem_cons_of_mem _)

theorem Accepted.insert (h : b.Accepted) (strict : Bool) (rule : Rule) :
    (b.insert strict rule).Accepted := by
  unfold Rulebook.insert
  split
  next hcheck =>
    intro r hr
    rcases mem_of_mem_replaceIn hr with rfl | hr
    · exact ⟨strict, hcheck⟩
    · exact h r hr
  next => exact h

theorem Accepted.add (h : b.Accepted) (strict : Bool) (loaded : Except Defect Rule) :
    (b.add strict loaded).Accepted := by
  cases loaded with
  | ok rule => exact h.insert strict rule
  | error defect => exact h

/-- **Whatever a source holds, the rules that get into the rulebook are accepted.** -/
theorem accepted_load (strict : Bool) (source : Source) : (load strict source).Accepted :=
  List.foldlRecOn (motive := Accepted) source.load _ accepted_empty
    fun _ h loaded _ => h.add strict loaded

theorem Accepted.absorb (h : b.Accepted) (strict : Bool) (other : Rulebook) :
    (b.absorb strict other).Accepted :=
  List.foldlRecOn (motive := Accepted) other.rules _ h fun _ h rule _ => h.insert strict rule

/-- A second check only takes rules away. -/
theorem Accepted.revalidate (h : b.Accepted) (strict : Bool) : (b.revalidate strict).Accepted :=
  fun r hr => h r (List.mem_filter.mp hr).1

theorem Accepted.get? (h : b.Accepted) {className : String} {r : Rule}
    (hr : b.get? className = some r) : r.Accepted :=
  h r (List.mem_of_find?_eq_some hr)

end Rulebook

end Misuse
