import Mathlib.Data.Set.Defs
import Misuse.Proofs.Trace

/-!
# Chains of states

A rule is a nondeterministic automaton over calls. `Moves called p q` is its step: a
transition leads from `p` to `q`, and matches the call as closely as any that leaves `p`. A
chain follows the steps of one state, and stays where it is at a call that no state of the
current set moves on (`Chain`). The sets that `advance` works out hold just the ends of
chains, and are unions over the states they start from (`simulates`).
-/

namespace Misuse

namespace Closeness

def AsCloseAs (k l : Closeness) : Prop := k = .exact ∨ l = .fuzzy

theorem AsCloseAs.trans {k l n : Closeness} (h : k.AsCloseAs l) (h' : l.AsCloseAs n) :
    k.AsCloseAs n := by
  rcases h with rfl | rfl
  · exact .inl rfl
  · exact .inr (h'.resolve_left nofun)

end Closeness

/-- An entry of the label matches the call this closely. -/
def Transition.Offers (t : Transition) (m : Matcher) (called : Callee) (k : Closeness) : Prop :=
  ∃ entry ∈ t.label, m.closeness? entry called = some k

namespace Rule

variable (r : Rule) (m : Matcher)

/-- The closest match of a call among the transitions that leave a state. -/
def Closest (called : Callee) (p : String) (k : Closeness) : Prop :=
  (∃ t ∈ r.automaton.transitions, t.source = p ∧ t.Offers m called k) ∧
    ∀ t ∈ r.automaton.transitions, t.source = p → ∀ l, t.Offers m called l → k.AsCloseAs l

/-- A call moves one state to another. -/
def Moves (called : Callee) (p q : String) : Prop :=
  ∃ k, r.Closest m called p k ∧
    ∃ t ∈ r.automaton.transitions, t.source = p ∧ t.target = q ∧ t.Offers m called k

/-- A chain from one state to another, which is in a set of states that moves along. -/
inductive Chain : Set String → List Call → String → String → Prop
  | nil {current : Set String} {p : String} : Chain current [] p p
  | move {current : Set String} {call : Call} {calls : List Call} {p q q' : String}
      (step : r.Moves m call.callee p q)
      (rest : Chain {b | ∃ a ∈ current, r.Moves m call.callee a b} calls q q') :
      Chain current (call :: calls) p q'
  | stay {current : Set String} {call : Call} {calls : List Call} {p q : String}
      (stuck : ∀ a ∈ current, ∀ b, ¬ r.Moves m call.callee a b)
      (rest : Chain current calls p q) : Chain current (call :: calls) p q

/-! ## The closest match -/

/-- The entry picked from a label matches as closely as any of its entries. -/
theorem closeness_best?_eq_some_iff (t : Transition) (called : Callee) (k : Closeness) :
    (m.best? t.label called).map Prod.snd = some k ↔
      t.Offers m called k ∧ ∀ l, t.Offers m called l → k.AsCloseAs l := by
  have found (l : Closeness) : t.Offers m called l ↔
      (t.label.find? fun entry => m.closeness? entry called == some l).isSome := by
    simp [Transition.Offers]
  have closest : (∀ l, t.Offers m called l → k.AsCloseAs l) ↔
      (t.Offers m called .exact → k = .exact) := by
    constructor
    · exact fun h hx => (h .exact hx).resolve_right nofun
    · intro h l hl
      cases l with
      | exact => exact .inl (h hl)
      | fuzzy => exact .inr rfl
  rw [closest]
  have exact := found .exact
  have fuzzy := found .fuzzy
  unfold Matcher.best?
  generalize t.label.find? (fun entry => m.closeness? entry called == some .exact) = x at *
  generalize t.label.find? (fun entry => m.closeness? entry called == some .fuzzy) = y at *
  cases k <;> cases x <;> cases y <;> simp [exact, fuzzy]

theorem Transition.Offers.exists_closest {t : Transition} {called : Callee} {l : Closeness}
    (h : t.Offers m called l) :
    ∃ k, t.Offers m called k ∧ ∀ l, t.Offers m called l → k.AsCloseAs l := by
  by_cases hx : t.Offers m called .exact
  · exact ⟨.exact, hx, fun _ _ => .inl rfl⟩
  · refine ⟨l, h, fun l' hl' => ?_⟩
    cases l' with
    | exact => exact absurd hl' hx
    | fuzzy => exact .inr rfl

/-- A transition that matches fires, as closely as its label matches. -/
theorem exists_firing_iff (called : Callee) (p q : String) (k : Closeness) :
    (∃ f ∈ (r.automaton.outgoing p).filterMap (firing? m called),
        f.target = q ∧ f.closeness = k) ↔
      ∃ t ∈ r.automaton.transitions, t.source = p ∧ t.target = q ∧ t.Offers m called k ∧
        ∀ l, t.Offers m called l → k.AsCloseAs l := by
  have fires (t : Transition) :
      (∃ f, firing? m called t = some f ∧ f.target = q ∧ f.closeness = k) ↔
        t.target = q ∧ (m.best? t.label called).map Prod.snd = some k := by
    rw [firing?]
    cases m.best? t.label called <;> simp
  simp only [← closeness_best?_eq_some_iff, ← fires, List.mem_filterMap, Automaton.outgoing,
    List.mem_filter, beq_iff_eq]
  constructor
  · rintro ⟨f, ⟨t, ⟨ht, hp⟩, hf⟩, hq⟩
    exact ⟨t, ht, hp, f, hf, hq⟩
  · rintro ⟨t, ht, hp, f, hf, hq⟩
    exact ⟨f, ⟨t, ⟨ht, hp⟩, hf⟩, hq⟩

/-- Of the transitions that match, those that match most closely fire. -/
theorem mem_firedFrom_iff (called : Callee) (p : String) (f : Firing) :
    f ∈ r.firedFrom m called p ↔
      f ∈ (r.automaton.outgoing p).filterMap (firing? m called) ∧
        ∀ g ∈ (r.automaton.outgoing p).filterMap (firing? m called),
          f.closeness.AsCloseAs g.closeness := by
  simp only [firedFrom]
  generalize (r.automaton.outgoing p).filterMap (firing? m called) = matching
  split
  next hnone =>
    have fuzzy : ∀ g ∈ matching, g.closeness = .fuzzy := by
      intro g hg
      cases hk : g.closeness with
      | fuzzy => rfl
      | exact => simpa [hk] using List.filter_eq_nil_iff.mp (List.isEmpty_iff.mp hnone) g hg
    exact ⟨fun hf => ⟨hf, fun g hg => .inr (fuzzy g hg)⟩, And.left⟩
  next hsome =>
    obtain ⟨g, hg⟩ := List.exists_mem_of_ne_nil _ (mt List.isEmpty_iff.mpr hsome)
    rw [List.mem_filter, beq_iff_eq] at hg ⊢
    refine and_congr_right fun hf => ⟨fun hk _ _ => .inl hk, fun h => ?_⟩
    exact (h g hg.1).resolve_right (by simp [hg.2])

/-- What fires from a state leads where the call moves it. -/
theorem exists_firedFrom_iff (called : Callee) (p q : String) :
    (∃ f ∈ r.firedFrom m called p, f.target = q) ↔ r.Moves m called p q := by
  simp only [mem_firedFrom_iff]
  constructor
  · rintro ⟨f, ⟨hf, hbest⟩, rfl⟩
    obtain ⟨t, ht, hp, hq, hoffers, -⟩ := (r.exists_firing_iff m called p _ _).mp ⟨f, hf, rfl, rfl⟩
    refine ⟨f.closeness, ⟨⟨t, ht, hp, hoffers⟩, fun u hu hpu l hl => ?_⟩, t, ht, hp, hq, hoffers⟩
    obtain ⟨l', hl', hmax⟩ := Transition.Offers.exists_closest m hl
    obtain ⟨g, hg, -, hgl⟩ :=
      (r.exists_firing_iff m called p _ _).mpr ⟨u, hu, hpu, rfl, hl', hmax⟩
    exact (hgl ▸ hbest g hg).trans (hmax l hl)
  · rintro ⟨k, ⟨-, hclosest⟩, t, ht, hp, hq, hoffers⟩
    obtain ⟨f, hf, rfl, rfl⟩ :=
      (r.exists_firing_iff m called p q k).mpr ⟨t, ht, hp, hq, hoffers, hclosest t ht hp⟩
    refine ⟨f, ⟨hf, fun g hg => ?_⟩, rfl⟩
    obtain ⟨u, hu, hpu, -, hl, -⟩ := (r.exists_firing_iff m called p _ _).mp ⟨g, hg, rfl, rfl⟩
    exact hclosest u hu hpu _ hl

/-! ## Steps -/

variable (object : String)

theorem fired_advance (current : List String) (call : Call) :
    (r.advance m object current call).fired = r.fired m call.callee current := by
  unfold advance
  split
  next h => exact h.symm
  next h => exact h.symm

theorem states_advance (current : List String) (call : Call) :
    (r.advance m object current call).states =
      if (r.advance m object current call).progressed then
        Sorted.ofList ((r.fired m call.callee current).map Firing.target)
      else current := by
  rw [Step.progressed, fired_advance]
  unfold advance
  split
  next h => simp [h]
  next h => simp [h]

theorem mem_targets_fired_iff (called : Callee) (current : List String) (q : String) :
    q ∈ (r.fired m called current).map Firing.target ↔
      ∃ p ∈ current, r.Moves m called p q := by
  simp only [fired, List.mem_map, List.mem_flatMap, ← exists_firedFrom_iff]
  constructor
  · rintro ⟨f, ⟨p, hp, hf⟩, hq⟩
    exact ⟨p, hp, f, hf, hq⟩
  · rintro ⟨p, hp, f, hf, hq⟩
    exact ⟨f, ⟨p, hp, hf⟩, hq⟩

theorem progressed_advance_iff (current : List String) (call : Call) :
    (r.advance m object current call).progressed ↔
      ∃ p ∈ current, ∃ q, r.Moves m call.callee p q := by
  have some : (r.advance m object current call).progressed ↔
      ∃ q, q ∈ (r.fired m call.callee current).map Firing.target := by
    rw [Step.progressed, fired_advance]
    cases r.fired m call.callee current <;> simp
  simp only [some, mem_targets_fired_iff]
  constructor
  · rintro ⟨q, p, hp, hq⟩
    exact ⟨p, hp, q, hq⟩
  · rintro ⟨p, hp, q, hq⟩
    exact ⟨q, p, hp, hq⟩

/-- A call moves every state of the set, if it can move one. -/
theorem mem_states_advance_iff {current : List String} {call : Call}
    (h : (r.advance m object current call).progressed) (q : String) :
    q ∈ (r.advance m object current call).states ↔
      ∃ p ∈ current, r.Moves m call.callee p q := by
  rw [states_advance, if_pos h, Sorted.mem_ofList, mem_targets_fired_iff]

/-- A call that moves no state leaves the set in place. -/
theorem states_advance_of_stuck {current : List String} {call : Call}
    (h : (r.advance m object current call).progressed = false) :
    (r.advance m object current call).states = current := by
  rw [states_advance, if_neg (ne_true_of_eq_false h)]

/-! ## Runs -/

theorem mem_statesAlong_iff (current : List String) (calls : List Call) (q : String) :
    q ∈ r.statesAlong m object current calls ↔
      ∃ p ∈ current, r.Chain m {a | a ∈ current} calls p q := by
  induction calls generalizing current with
  | nil =>
    constructor
    · exact fun hq => ⟨q, hq, .nil⟩
    · rintro ⟨p, hp, ⟨⟩⟩
      exact hp
  | cons call calls ih =>
    refine (ih (r.advance m object current call).states).trans ?_
    cases hmoves : (r.advance m object current call).progressed with
    | true =>
      obtain ⟨a, ha, b, hab⟩ := (r.progressed_advance_iff m object current call).mp hmoves
      simp only [mem_states_advance_iff r m object hmoves]
      constructor
      · rintro ⟨p', ⟨p, hp, hstep⟩, hrest⟩
        exact ⟨p, hp, .move hstep hrest⟩
      · rintro ⟨p, hp, hchain⟩
        cases hchain with
        | move hstep hrest => exact ⟨_, ⟨p, hp, hstep⟩, hrest⟩
        | stay hstuck => exact absurd hab (hstuck a ha b)
    | false =>
      have stuck : ∀ a ∈ current, ∀ b, ¬ r.Moves m call.callee a b := by
        intro a ha b hab
        rw [(r.progressed_advance_iff m object current call).mpr ⟨a, ha, b, hab⟩] at hmoves
        cases hmoves
      rw [states_advance_of_stuck r m object hmoves]
      refine exists_congr fun p => and_congr_right fun hp => ⟨.stay stuck, fun hchain => ?_⟩
      cases hchain with
      | move hstep => exact absurd hstep (stuck p hp _)
      | stay _ hrest => exact hrest

/-! ## Unions -/

/-- A call that moves a state of either set moves their union to the targets of both. -/
theorem states_advance_union {A B : List String} {call : Call}
    (h : (r.advance m object A call).progressed ∨ (r.advance m object B call).progressed) :
    (r.advance m object (Sorted.ofList (A ++ B)) call).states =
      Sorted.ofList ((r.fired m call.callee A).map Firing.target
        ++ (r.fired m call.callee B).map Firing.target) := by
  have union (q : String) : (∃ p ∈ Sorted.ofList (A ++ B), r.Moves m call.callee p q) ↔
      (∃ p ∈ A, r.Moves m call.callee p q) ∨ ∃ p ∈ B, r.Moves m call.callee p q := by
    simp only [Sorted.mem_ofList, List.mem_append, or_and_right, exists_or]
  have moves : (r.advance m object (Sorted.ofList (A ++ B)) call).progressed := by
    simp only [progressed_advance_iff] at h ⊢
    rcases h with ⟨p, hp, hq⟩ | ⟨p, hp, hq⟩
    · exact ⟨p, (Sorted.mem_ofList ..).mpr (List.mem_append_left _ hp), hq⟩
    · exact ⟨p, (Sorted.mem_ofList ..).mpr (List.mem_append_right _ hp), hq⟩
  rw [states_advance, if_pos moves]
  refine Sorted.ofList_congr fun q => ?_
  rw [List.mem_append, mem_targets_fired_iff, mem_targets_fired_iff, mem_targets_fired_iff, union]

/-- **The states after some calls are the ends of chains of single states**, and one call
moves a union of two sets to the union of where it moves them. -/
theorem simulates_chains :
    (∀ start calls q, q ∈ r.statesAlong m object start calls ↔
      ∃ p ∈ start, r.Chain m {a | a ∈ start} calls p q) ∧
    ∀ A B call,
      let a := r.advance m object A call
      let b := r.advance m object B call
      let union := r.advance m object (Sorted.ofList (A ++ B)) call
      (a.progressed ↔ ∃ p ∈ A, ∃ q, r.Moves m call.callee p q) ∧
      (a.progressed → b.progressed → union.states = Sorted.ofList (a.states ++ b.states)) ∧
      (a.progressed → ¬ b.progressed → union.states = a.states) ∧
      (¬ a.progressed → b.progressed → union.states = b.states) := by
  refine ⟨r.mem_statesAlong_iff m object, fun A B call => ?_⟩
  have idle {C : List String} (h : ¬ (r.advance m object C call).progressed) :
      r.fired m call.callee C = [] := by
    simpa [Step.progressed, fired_advance] using h
  refine ⟨r.progressed_advance_iff m object A call, fun ha hb => ?_, fun ha hb => ?_,
    fun ha hb => ?_⟩
  · rw [states_advance_union r m object (.inl ha), states_advance, if_pos ha, states_advance,
      if_pos hb]
    refine Sorted.ofList_congr fun q => ?_
    simp only [List.mem_append, Sorted.mem_ofList]
  · rw [states_advance_union r m object (.inl ha), idle hb, states_advance, if_pos ha]
    rw [List.map_nil, List.append_nil]
  · rw [states_advance_union r m object (.inr hb), idle ha, states_advance, if_pos hb]
    rw [List.map_nil, List.nil_append]

/-- A vendor's class has a digest of its own, below the plain one. -/
def digestRule : Rule :=
  { Rule.empty "Digest" with
    automaton :=
      { states := [⟨"new", false⟩, ⟨"old", false⟩, ⟨"plain", true⟩, ⟨"vendor", true⟩]
        initial := ["new"]
        transitions :=
          [⟨"new", "plain", [.ofParams "Digest.digest" []]⟩,
           ⟨"new", "vendor", [.ofParams "Vendor.digest" []]⟩,
           ⟨"old", "plain", [.ofParams "Digest.digest" []]⟩] } }

def digestMatcher : Matcher := ⟨(Hierarchy.ofList [("Vendor", "Digest")]).isSubtype, true⟩

def digestCall : Call := ⟨"1", ⟨"Vendor", "digest", []⟩, "Vendor"⟩

/-- A new digest has an exact match and goes there only, an old one has a fuzzy match. A
digest that was used already stays where it is, unless it is in a set with one that moves. -/
theorem simulates_chains_digest :
    let after states := digestRule.advance digestMatcher "d" states digestCall
    ((after ["new"]).progressed ∧ (after ["old"]).progressed ∧ ¬ (after ["vendor"]).progressed) ∧
      ((after ["new"]).states = ["vendor"] ∧ (after ["old"]).states = ["plain"]) ∧
      (after (Sorted.ofList (["new"] ++ ["old"]))).states =
        Sorted.ofList ((after ["new"]).states ++ (after ["old"]).states) ∧
      (after (Sorted.ofList (["old"] ++ ["vendor"]))).states = (after ["old"]).states ∧
      ∃ p ∈ ["new"], digestRule.Chain digestMatcher {a | a ∈ ["new"]} [digestCall, digestCall]
        p "vendor" := by
  have moves : ((digestRule.advance digestMatcher "d" ["new"] digestCall).progressed ∧
      (digestRule.advance digestMatcher "d" ["old"] digestCall).progressed ∧
      ¬ (digestRule.advance digestMatcher "d" ["vendor"] digestCall).progressed) := by
    decide +kernel
  obtain ⟨hnew, hold, hvendor⟩ := moves
  have simulates := digestRule.simulates_chains digestMatcher "d"
  refine ⟨⟨hnew, hold, hvendor⟩, by decide +kernel, ?_, ?_, ?_⟩
  · exact (simulates.2 ["new"] ["old"] digestCall).2.1 hnew hold
  · exact (simulates.2 ["old"] ["vendor"] digestCall).2.2.1 hold hvendor
  · exact (simulates.1 ["new"] [digestCall, digestCall] "vendor").mp (by decide +kernel)

end Rule

end Misuse
