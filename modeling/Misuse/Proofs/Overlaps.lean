import Mathlib.Data.List.Pairwise
import Misuse.Proofs.Chains
import Misuse.Proofs.Declarations

/-!
# Overlapping labels

The strict check refuses two entries for one method that lead from one state to different
targets (`checkLabels_eq_ok_iff`). It compares entries as they are written. A call compares owner,
short name and types only, so it can match entries that are written differently
(`Signature.meets_iff`). An accepted rule is deterministic on exact matches exactly if no such
entries lead from one state to different targets (`exact_deterministic_iff`).
-/

namespace Misuse

/-! ## Entries that meet -/

/-- Some argument type suits both parameters. -/
def Parameter.meets (p q : Parameter) : Bool :=
  p.type == q.type || p.type == "AnyType" || q.type == "AnyType"

theorem Parameter.accepts_iff (p : Parameter) (type : String) :
    p.accepts type = true ↔ p.type = "AnyType" ∨ p.type = type := by
  simp [Parameter.accepts]

theorem Parameter.meets_iff (p q : Parameter) :
    p.meets q = true ↔ ∃ type, p.accepts type = true ∧ q.accepts type = true := by
  simp only [Parameter.accepts_iff, Parameter.meets, Bool.or_eq_true, beq_iff_eq]
  constructor
  · rintro ((same | any) | any)
    · exact ⟨p.type, .inr rfl, .inr same.symm⟩
    · exact ⟨q.type, .inl any, .inr rfl⟩
    · exact ⟨p.type, .inr rfl, .inl any⟩
  · rintro ⟨type, any | hp, any' | hq⟩
    · exact .inl (.inr any)
    · exact .inl (.inr any)
    · exact .inr any'
    · exact .inl (.inl (hp.trans hq.symm))

namespace Signature

/-- Some argument types suit both parameter lists. -/
def paramsMeet : List Parameter → List Parameter → Bool
  | [], [] => true
  | p :: ps, q :: qs => p.meets q && paramsMeet ps qs
  | _, _ => false

/-- Some call matches both entries exactly. -/
def meets (m n : Signature) : Bool :=
  m.owner == n.owner && m.shortName == n.shortName && paramsMeet m.params n.params

theorem paramsMeet_iff (ps qs : List Parameter) :
    paramsMeet ps qs = true ↔ ∃ types, acceptsAll ps types = true ∧ acceptsAll qs types = true := by
  induction ps generalizing qs with
  | nil =>
    cases qs with
    | nil => exact ⟨fun _ => ⟨[], rfl, rfl⟩, fun _ => rfl⟩
    | cons q qs =>
      refine ⟨nofun, ?_⟩
      rintro ⟨types, hp, hq⟩
      cases types with
      | nil => cases hq
      | cons type types => cases hp
  | cons p ps ih =>
    cases qs with
    | nil =>
      refine ⟨nofun, ?_⟩
      rintro ⟨types, hp, hq⟩
      cases types with
      | nil => cases hp
      | cons type types => cases hq
    | cons q qs =>
      rw [paramsMeet, Bool.and_eq_true, Parameter.meets_iff, ih]
      constructor
      · rintro ⟨⟨type, hp, hq⟩, types, hps, hqs⟩
        refine ⟨type :: types, ?_, ?_⟩ <;> simp [acceptsAll, hp, hq, hps, hqs]
      · rintro ⟨types, hps, hqs⟩
        cases types with
        | nil => cases hps
        | cons type types =>
          simp only [acceptsAll, Bool.and_eq_true] at hps hqs
          exact ⟨⟨type, hps.1, hqs.1⟩, types, hps.2, hqs.2⟩

end Signature

theorem Matcher.closeness?_eq_exact_iff (m : Matcher) (entry : Signature) (called : Callee) :
    m.closeness? entry called = some .exact ↔
      entry.owner = called.owner ∧ entry.shortName = called.name ∧
        entry.accepts called.types = true := by
  unfold closeness?
  by_cases name : entry.shortName = called.name ∧ entry.accepts called.types = true
  · by_cases owner : entry.owner = called.owner
    · simp [name, owner]
    · have other : (entry.owner == called.owner) = false := beq_eq_false_iff_ne.mpr owner
      simp only [name, owner, other, beq_self_eq_true, Bool.and_self, ↓reduceIte, false_and,
        iff_false, Bool.false_eq_true]
      split <;> simp
  · have other : (entry.shortName == called.name && entry.accepts called.types) = false := by
      simpa using name
    simp only [other, Bool.false_eq_true, ↓reduceIte, name, and_false, reduceCtorEq]

/-- **Entries meet exactly if some call matches both exactly.** -/
theorem Signature.meets_iff (m : Matcher) (entry entry' : Signature) :
    entry.meets entry' = true ↔
      ∃ called, m.closeness? entry called = some .exact ∧
        m.closeness? entry' called = some .exact := by
  simp only [meets, Bool.and_eq_true, beq_iff_eq, paramsMeet_iff, m.closeness?_eq_exact_iff]
  constructor
  · rintro ⟨⟨owner, name⟩, types, suits, suits'⟩
    exact ⟨⟨entry.owner, entry.shortName, types⟩, ⟨rfl, rfl, suits⟩, owner.symm, name.symm, suits'⟩
  · rintro ⟨called, ⟨owner, name, suits⟩, owner', name', suits'⟩
    exact ⟨⟨owner.trans owner'.symm, name.trans name'.symm⟩, called.types, suits, suits'⟩

/-! ## The strict check -/

namespace Rule

/-- One method leads to one target. -/
def Compatible (e e' : Signature × String) : Prop := e.1.same e'.1 = true → e.2 = e'.2

instance : Std.Symm Compatible where
  symm _ _ h same := by
    rw [Signature.same_iff] at same
    exact (h ((Signature.same_iff _ _).mpr same.symm)).symm

theorem overlap?_eq_none_iff (earlier entries : List (Signature × String)) :
    overlap? earlier entries = none ↔
      (∀ e ∈ earlier, ∀ e' ∈ entries, Compatible e e') ∧ entries.Pairwise Compatible := by
  induction entries generalizing earlier with
  | nil => simp [overlap?]
  | cons e' entries ih =>
    have first : (earlier.any fun e => e.1.same e'.1 && e.2 != e'.2) = false ↔
        ∀ e ∈ earlier, Compatible e e' := by
      simp [Compatible, List.any_eq_false]
    rw [overlap?, List.pairwise_cons]
    cases hany : earlier.any fun e => e.1.same e'.1 && e.2 != e'.2 with
    | true =>
      simp only [↓reduceIte, reduceCtorEq, List.forall_mem_cons, false_iff, not_and]
      intro h
      rw [first.mpr fun e he => (h e he).1] at hany
      cases hany
    | false =>
      simp only [Bool.false_eq_true, ↓reduceIte, ih, List.forall_mem_cons, forall_and]
      have ahead := first.mp hany
      tauto

variable {r : Rule}

theorem checkLabels_eq_ok_iff :
    r.checkLabels = .ok () ↔
      ∀ s ∈ r.automaton.states, (entriesFrom r.automaton s.id).Pairwise Compatible := by
  have clear (s : State) : overlap? [] (entriesFrom r.automaton s.id) = none ↔
      (entriesFrom r.automaton s.id).Pairwise Compatible := by
    simp [overlap?_eq_none_iff]
  unfold checkLabels
  simp only [← clear]
  cases hfind : r.automaton.states.findSome? fun s =>
      (overlap? [] (entriesFrom r.automaton s.id)).map fun m => (s.id, m) with
  | none => simpa using hfind
  | some found =>
    obtain ⟨s, hs, hover⟩ := List.exists_of_findSome?_eq_some hfind
    refine ⟨nofun, fun h => ?_⟩
    rw [h s hs] at hover
    cases hover

/-- A label entry of a transition from the state, with the target. -/
theorem mem_entriesFrom_iff {a : Automaton} {state : String} {e : Signature × String} :
    e ∈ entriesFrom a state ↔ ∃ t ∈ a.outgoing state, e.1 ∈ t.label ∧ t.target = e.2 := by
  obtain ⟨m, target⟩ := e
  simp [entriesFrom]

/-- **A strict check leaves one target to each method**, declared or not as the state may be. -/
theorem compatible_of_check (h : r.check true = .ok ()) (state : String) :
    ∀ e ∈ entriesFrom r.automaton state, ∀ e' ∈ entriesFrom r.automaton state,
      Compatible e e' := by
  intro e he e' he'
  have accepted : r.Accepted := ⟨true, h⟩
  obtain ⟨t, ht, -, -⟩ := mem_entriesFrom_iff.mp he
  obtain ⟨transition, source⟩ := List.mem_filter.mp ht
  have declared : r.automaton.declares state = true := by
    rw [← beq_iff_eq.mp source]
    exact accepted.declares (List.mem_append_left _ (List.mem_append_right _
      (List.mem_flatMap.mpr ⟨t, transition, by simp⟩)))
  obtain ⟨s, hs, hid⟩ := List.any_eq_true.mp declared
  have pairs := checkLabels_eq_ok_iff.mp (((check_eq_ok_iff true).mp h).2.1 rfl) s hs
  rw [beq_iff_eq.mp hid] at pairs
  exact pairs.forall_of_forall (fun _ _ _ => rfl) he he'

/-! ## Exact matches -/

/-- All transitions from the state that match a call exactly lead to one target. -/
def ExactDeterministic (r : Rule) (m : Matcher) (state : String) : Prop :=
  ∀ called, ∀ t ∈ r.automaton.outgoing state, ∀ t' ∈ r.automaton.outgoing state,
    t.Offers m called .exact → t'.Offers m called .exact → t.target = t'.target

/-- **Where exact matching is deterministic.** In a rule that is accepted strictly, entries for one
method lead from one state to one target. Its exact matches are deterministic exactly if this also
holds for entries that are written differently and match a common call. -/
theorem exact_deterministic_iff (h : r.check true = .ok ()) (m : Matcher) (state : String) :
    (∀ e ∈ entriesFrom r.automaton state, ∀ e' ∈ entriesFrom r.automaton state,
      e.1.same e'.1 = true → e.2 = e'.2) ∧
    (r.ExactDeterministic m state ↔
      ∀ e ∈ entriesFrom r.automaton state, ∀ e' ∈ entriesFrom r.automaton state,
        e.1.same e'.1 = false → e.1.meets e'.1 = true → e.2 = e'.2) := by
  refine ⟨compatible_of_check h state, fun deterministic e he e' he' _ meets => ?_, ?_⟩
  · obtain ⟨t, ht, hm, htarget⟩ := mem_entriesFrom_iff.mp he
    obtain ⟨t', ht', hm', htarget'⟩ := mem_entriesFrom_iff.mp he'
    obtain ⟨called, exact, exact'⟩ := (Signature.meets_iff m e.1 e'.1).mp meets
    rw [← htarget, ← htarget']
    exact deterministic called t ht t' ht' ⟨e.1, hm, exact⟩ ⟨e'.1, hm', exact'⟩
  · rintro apart called t ht t' ht' ⟨entry, hm, exact⟩ ⟨entry', hm', exact'⟩
    have he : (entry, t.target) ∈ entriesFrom r.automaton state :=
      mem_entriesFrom_iff.mpr ⟨t, ht, hm, rfl⟩
    have he' : (entry', t'.target) ∈ entriesFrom r.automaton state :=
      mem_entriesFrom_iff.mpr ⟨t', ht', hm', rfl⟩
    cases same : entry.same entry' with
    | true => exact compatible_of_check h state _ he _ he' same
    | false =>
      exact apart _ he _ he' same ((Signature.meets_iff m entry entry').mpr ⟨called, exact, exact'⟩)

/-! ## A fork -/

/-- A cipher with two ways to go on, each with its own entry. -/
def forkedCipher (left right : Signature) : Rule :=
  { Rule.empty "Cipher" with
    declarations := [⟨"key", "Key"⟩, ⟨"secret", "Key"⟩]
    automaton :=
      { states := [⟨"new", false⟩, ⟨"left", true⟩, ⟨"right", true⟩]
        initial := ["new"]
        transitions := [⟨"new", "left", [left]⟩, ⟨"new", "right", [right]⟩] } }

/-- No type has a supertype. -/
def flatMatcher : Matcher := ⟨Hierarchy.empty.isSubtype, true⟩

theorem exact_deterministic_iff_wrap :
    let r := forkedCipher initKey (.ofParams "Cipher.wrap" [⟨"key", "Key"⟩])
    r.check true = .ok () ∧ r.ExactDeterministic flatMatcher "new" := by
  intro r
  have accepted : r.check true = .ok () := by decide
  exact ⟨accepted, (exact_deterministic_iff accepted flatMatcher "new").2.mpr (by decide)⟩

theorem not_exactDeterministic_forkedCipher {left right : Signature}
    (meets : left.meets right = true) (m : Matcher) :
    ¬ (forkedCipher left right).ExactDeterministic m "new" := by
  intro deterministic
  obtain ⟨called, exact, exact'⟩ := (Signature.meets_iff m left right).mp meets
  have targets : "left" = "right" :=
    deterministic called ⟨"new", "left", [left]⟩ (List.mem_cons_self ..)
      ⟨"new", "right", [right]⟩ (List.mem_cons_of_mem _ (List.mem_cons_self ..))
      ⟨left, List.mem_singleton_self _, exact⟩ ⟨right, List.mem_singleton_self _, exact'⟩
  exact absurd targets (by decide)

/-- The name of a parameter, a type that suits all arguments, a name with an empty owner: two
entries that differ in one of them are not the same method to the strict check, and match one call
exactly. -/
theorem not_exactDeterministic_of_accepted :
    let named := forkedCipher initKey (.ofParams "Cipher.init" [⟨"secret", "Key"⟩])
    let wide := forkedCipher initKey (.ofParams "Cipher.init" [⟨"key", "AnyType"⟩])
    let bare := forkedCipher (.ofParams "init" []) (.ofParams ".init" [])
    ∀ r ∈ [named, wide, bare],
      r.check true = .ok () ∧ ∀ m : Matcher, ¬ r.ExactDeterministic m "new" := by
  intro named wide bare r hr
  simp only [List.mem_cons, List.not_mem_nil, or_false] at hr
  obtain rfl | rfl | rfl := hr
  all_goals exact ⟨by decide, not_exactDeterministic_forkedCipher (by decide)⟩

end Rule

end Misuse
