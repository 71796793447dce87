import Misuse.Proofs.Bans
import Misuse.Proofs.Overlaps
import Misuse.Proofs.Parts

/-!
# Misplaced calls

A call matches an entry of a label by short name, argument types and owner (`Matcher.Matches`). The
automaton knows it if it matches an entry of any label, and allows it if the label leaves one of the
current states. That the alphabet lists a method once, and that exact matches put fuzzy ones aside,
decides which entry is looked at, and not whether there is one (`inAlphabet_iff`, `progressed_iff`).
So a call is reported as misplaced exactly if it is known and not allowed, and a call that is not
allowed leaves all as it is. Bans do not depend on the states (`outcome_of_advance`).
-/

namespace Misuse

/-! ## Matches -/

/-- The argument types are those of the parameters, but for parameters that take any type. -/
def Signature.Takes (entry : Signature) (types : List String) : Prop :=
  List.Forall₂ (fun p type => p.type = "AnyType" ∨ p.type = type) entry.params types

theorem Signature.accepts_iff_takes (entry : Signature) (types : List String) :
    entry.accepts types = true ↔ entry.Takes types := by
  unfold accepts Takes
  generalize entry.params = params
  induction params generalizing types with
  | nil => cases types <;> simp [acceptsAll]
  | cons p params ih =>
    cases types with
    | nil => simp [acceptsAll]
    | cons type types => simp [acceptsAll, Parameter.accepts_iff, ih]

/-- The call is one to the method of the entry, or to that method of a subtype if such calls count. -/
structure Matcher.Matches (m : Matcher) (entry : Signature) (called : Callee) : Prop where
  name : entry.shortName = called.name
  types : entry.Takes called.types
  owner : entry.owner = called.owner ∨
    m.fuzzy = true ∧ m.subtyping called.owner entry.owner = true

theorem Matcher.accepts_iff_matches (m : Matcher) (entry : Signature) (called : Callee) :
    m.accepts entry called = true ↔ m.Matches entry called := by
  have parts : m.Matches entry called ↔ entry.shortName = called.name ∧ entry.Takes called.types ∧
      (entry.owner = called.owner ∨
        m.fuzzy = true ∧ m.subtyping called.owner entry.owner = true) :=
    ⟨fun h => ⟨h.name, h.types, h.owner⟩, fun h => ⟨h.1, h.2.1, h.2.2⟩⟩
  rw [parts, ← entry.accepts_iff_takes]
  unfold accepts closeness?
  grind

theorem Transition.exists_offers_iff (m : Matcher) (t : Transition) (called : Callee) :
    (∃ k, t.Offers m called k) ↔ ∃ entry ∈ t.label, m.Matches entry called := by
  simp only [← m.accepts_iff_matches, Matcher.accepts, Option.isSome_iff_exists, Transition.Offers]
  constructor
  · rintro ⟨k, entry, he, hk⟩
    exact ⟨entry, he, k, hk⟩
  · rintro ⟨entry, he, k, hk⟩
    exact ⟨k, entry, he, hk⟩

namespace Automaton

variable (a : Automaton) (m : Matcher) (called : Callee)

/-- The call matches an entry of some label. -/
def Knows : Prop := ∃ t ∈ a.transitions, ∃ entry ∈ t.label, m.Matches entry called

/-- The call matches an entry of a label that leaves one of the states. -/
def Allows (current : List String) : Prop :=
  ∃ t ∈ a.transitions, t.source ∈ current ∧ ∃ entry ∈ t.label, m.Matches entry called

/-- The entries that the alphabet leaves out match what those do that it keeps. -/
theorem inAlphabet_iff : a.inAlphabet m called = true ↔ a.Knows m called := by
  have same : ∀ e ∈ a.entries, ∀ e' ∈ a.entries, e.forgetResult = e'.forgetResult →
      m.accepts e called = m.accepts e' called := by
    intro e _ e' _ h
    change m.accepts e.forgetResult called = m.accepts e'.forgetResult called
    rw [h]
  have kept := mem_map_distinctBy_of_congr same true
  have all : a.inAlphabet m called = true ↔
      true ∈ a.alphabet.map fun entry => m.accepts entry called := by
    rw [inAlphabet, List.any_eq_true, List.mem_map]
  rw [all, alphabet, ← entries, kept]
  simp only [entries, List.mem_map, List.mem_flatMap, m.accepts_iff_matches, Knows]
  constructor
  · rintro ⟨entry, ⟨t, ht, he⟩, met⟩
    exact ⟨t, ht, entry, he, met⟩
  · rintro ⟨t, ht, entry, he, met⟩
    exact ⟨entry, ⟨t, ht, he⟩, met⟩

end Automaton

namespace Rule

variable (r : Rule) (m : Matcher) (object : String) (current : List String) (call : Call)

/-- A state moves if some label that leaves it has an entry that matches: one as close as any. -/
theorem exists_moves_iff (called : Callee) (p : String) :
    (∃ q, r.Moves m called p q) ↔
      ∃ t ∈ r.automaton.transitions, t.source = p ∧ ∃ k, t.Offers m called k := by
  constructor
  · rintro ⟨q, k, -, t, ht, source, -, offers⟩
    exact ⟨t, ht, source, k, offers⟩
  · rintro ⟨t, ht, source, k, offers⟩
    by_cases exact : ∃ t ∈ r.automaton.transitions, t.source = p ∧ t.Offers m called .exact
    · obtain ⟨t', ht', source', offers'⟩ := exact
      exact ⟨t'.target, .exact, ⟨⟨t', ht', source', offers'⟩, fun _ _ _ _ _ => .inl rfl⟩,
        t', ht', source', rfl, offers'⟩
    · have fuzzy : ∀ t ∈ r.automaton.transitions, t.source = p → ∀ l, t.Offers m called l →
          l = .fuzzy := by
        intro t ht source l offers
        cases l with
        | exact => exact absurd ⟨t, ht, source, offers⟩ exact
        | fuzzy => rfl
      obtain rfl := fuzzy t ht source k offers
      exact ⟨t.target, .fuzzy, ⟨⟨t, ht, source, offers⟩,
        fun t' ht' source' l offers' => .inr (fuzzy t' ht' source' l offers')⟩,
        t, ht, source, rfl, offers⟩

/-- **A call moves the object exactly if it is allowed.** -/
theorem progressed_iff : (r.advance m object current call).progressed = true ↔
    r.automaton.Allows m call.callee current := by
  simp only [progressed_advance_iff, exists_moves_iff, Transition.exists_offers_iff]
  constructor
  · rintro ⟨p, hp, t, ht, rfl, met⟩
    exact ⟨t, ht, hp, met⟩
  · rintro ⟨t, ht, hp, met⟩
    exact ⟨t.source, hp, t, ht, rfl, met⟩

/-! ## Calls that move nothing -/

/-- A step that leaves the object where it is. -/
structure Idle (current : List String) (s : Step) : Prop where
  states : s.states = current
  fired : s.fired = []
  queries : s.queries = []
  triggers : s.triggers = []

theorem idle_of_stuck (h : (r.advance m object current call).progressed = false) :
    Idle current (r.advance m object current call) := by
  rw [Step.progressed, fired_advance] at h
  unfold advance
  split
  · exact ⟨rfl, rfl, rfl, rfl⟩
  next fires => simp [fires] at h

variable {r m object} in
theorem kind_of_banRecord? {v : Violation} (h : r.banRecord? m object call = some v) :
    v.kind = .forbiddenCall := by
  obtain ⟨b, -, rfl⟩ := Option.map_eq_some_iff.mp h
  rfl

/-- A step records the ban that matches first, and the call if it is misplaced. -/
theorem violations_advance :
    (r.advance m object current call).violations = (r.banRecord? m object call).toList ++
      if (r.advance m object current call).progressed = false ∧
          r.automaton.inAlphabet m call.callee = true
      then [r.orderingRecord object current call] else [] := by
  rw [Step.progressed, fired_advance]
  unfold advance
  cases fires : r.fired m call.callee current with
  | cons f fs => simp
  | nil => simp

/-- **A call is misplaced if it is known and not allowed.** -/
theorem exists_ordering_iff :
    (∃ v ∈ (r.advance m object current call).violations, v.kind = .ordering) ↔
      r.automaton.Knows m call.callee ∧ ¬ r.automaton.Allows m call.callee current := by
  have misplaced : (r.advance m object current call).progressed = false ∧
      r.automaton.inAlphabet m call.callee = true ↔
        r.automaton.Knows m call.callee ∧ ¬ r.automaton.Allows m call.callee current := by
    rw [← r.progressed_iff m object, ← Automaton.inAlphabet_iff, Bool.not_eq_true, and_comm]
  rw [violations_advance, ← misplaced]
  constructor
  · rintro ⟨v, hv, kind⟩
    rcases List.mem_append.mp hv with hv | hv
    · rw [kind_of_banRecord? call (Option.mem_toList.mp hv)] at kind
      cases kind
    · by_cases misplaced : (r.advance m object current call).progressed = false ∧
          r.automaton.inAlphabet m call.callee = true
      · exact misplaced
      · rw [if_neg misplaced] at hv
        cases hv
  · intro misplaced
    rw [if_pos misplaced]
    exact ⟨_, List.mem_append_right _ (List.mem_singleton_self _), rfl⟩

/-- **A call is banned if an open ban matches it.** -/
theorem exists_forbiddenCall_iff :
    (∃ v ∈ (r.advance m object current call).violations, v.kind = .forbiddenCall) ↔
      ∃ b ∈ r.bans, b.silent = false ∧ m.Matches b.method call.callee := by
  have found : (∃ v ∈ (r.advance m object current call).violations, v.kind = .forbiddenCall) ↔
      ((r.advance m object current call).violations.filter
        fun v => v.kind == .forbiddenCall) ≠ [] := by
    simp [List.filter_eq_nil_iff]
  rw [found, forbidden_advance]
  simp [banRecord?, reportedBans, m.accepts_iff_matches]

/-- Nothing is recorded twice for one call. -/
theorem nodup_kinds_advance :
    ((r.advance m object current call).violations.map Violation.kind).Nodup := by
  rw [violations_advance, List.map_append]
  cases banned : r.banRecord? m object call with
  | none => split <;> simp
  | some v =>
    have kind := kind_of_banRecord? call banned
    split <;> simp [kind, orderingRecord, Violation.ordering]

/-! ## Calls that move the object -/

/-- The least of the states that the effect happens in. -/
structure LeastFor (e : Effect) (states : List String) (q : String) : Prop where
  mem : q ∈ states
  happens : e.happensIn q (r.automaton.isAccepting q) = true
  least : ∀ p ∈ states, e.happensIn p (r.automaton.isAccepting p) = true →
    p = q ∨ compare q p = .lt

/-- What is found first in an increasing list is the least that passes the test. -/
theorem least_of_find? {test : String → Bool} {states : List String} {q : String}
    (h : Sorted.Increasing states) (found : states.find? test = some q) :
    ∀ p ∈ states, test p = true → p = q ∨ compare q p = .lt := by
  induction states with
  | nil => cases found
  | cons a states ih =>
    obtain ⟨below, increasing⟩ := List.pairwise_cons.mp h
    intro p hp passes
    rw [List.find?_cons] at found
    cases ha : test a with
    | true =>
      rw [ha] at found
      cases found
      exact (List.mem_cons.mp hp).imp_right (below p)
    | false =>
      rw [ha] at found
      have other : p ≠ a := fun same => by rw [same, ha] at passes; cases passes
      exact ih increasing found p ((List.mem_cons.mp hp).resolve_left other) passes

variable {r} in
theorem leastFor_of_find? {e : Effect} {states : List String} {q : String}
    (h : Sorted.Increasing states)
    (found : (states.find? fun q => e.happensIn q (r.automaton.isAccepting q)) = some q) :
    r.LeastFor e states q :=
  ⟨List.mem_of_find?_eq_some found,
    List.find?_some (p := fun q => e.happensIn q (r.automaton.isAccepting q)) found,
    least_of_find? h found⟩

theorem mem_triggers_iff (site : String) (reached : List String) (g : Trigger) :
    g ∈ r.triggers site reached ↔ g.site = site ∧ ∃ e, r.effects[g.effect]? = some e ∧
      (reached.find? fun q => e.happensIn q (r.automaton.isAccepting q)) = some g.state := by
  simp only [triggers, List.mem_filterMap, Option.map_eq_some_iff, Prod.exists,
    List.mem_zipIdx_iff_getElem?]
  constructor
  · rintro ⟨e, i, he, q, hq, rfl⟩
    exact ⟨rfl, e, he, hq⟩
  · rintro ⟨rfl, e, he, hq⟩
    exact ⟨e, g.effect, he, g.state, hq, rfl⟩

theorem nodup_triggers (site : String) (reached : List String) :
    ((r.triggers site reached).map Trigger.effect).Nodup := by
  have positions : (r.effects.zipIdx.map Prod.snd).Nodup := by
    rw [List.zipIdx_map_snd]
    exact List.nodup_range'
  rw [triggers, List.map_filterMap]
  refine positions.sublist (filterMap_sublist_map ?_ _)
  rintro ⟨e, i⟩ j hj
  obtain ⟨g, hg, rfl⟩ := Option.map_eq_some_iff.mp hj
  obtain ⟨q, -, rfl⟩ := Option.map_eq_some_iff.mp hg
  rfl

/-- A step to the targets of what fires. An effect is due once if it happens in one of them, for the
least in which it does, and not otherwise. -/
structure Moved (site : String) (s : Step) : Prop where
  increasing : Sorted.Increasing s.states
  states : ∀ q, q ∈ s.states ↔ ∃ f ∈ s.fired, f.target = q
  once : (s.triggers.map Trigger.effect).Nodup
  due : ∀ i e, r.effects[i]? = some e → ((∃ g ∈ s.triggers, g.effect = i) ↔
    ∃ q ∈ s.states, e.happensIn q (r.automaton.isAccepting q) = true)
  least : ∀ g ∈ s.triggers, g.site = site ∧
    ∃ e, r.effects[g.effect]? = some e ∧ r.LeastFor e s.states g.state

theorem moved_of_fired (h : (r.advance m object current call).fired ≠ []) :
    r.Moved call.site (r.advance m object current call) := by
  obtain ⟨f, fs, fires⟩ := List.exists_cons_of_ne_nil (r.fired_advance m object current call ▸ h)
  have reached : Sorted.Increasing (Sorted.ofList ((f :: fs).map Firing.target)) :=
    Sorted.increasing_ofList _
  unfold advance
  simp only [fires]
  refine ⟨reached, fun q => by rw [Sorted.mem_ofList, List.mem_map], r.nodup_triggers _ _, ?_, ?_⟩
  · intro i e he
    simp only [mem_triggers_iff]
    constructor
    · rintro ⟨g, ⟨-, e', he', hq⟩, rfl⟩
      obtain rfl := Option.some.inj (he'.symm.trans he)
      have found := leastFor_of_find? reached hq
      exact ⟨g.state, found.mem, found.happens⟩
    · intro happens
      obtain ⟨q, hq⟩ := Option.isSome_iff_exists.mp (List.find?_isSome.mpr happens)
      exact ⟨⟨i, q, call.site⟩, ⟨rfl, e, he, hq⟩, rfl⟩
  · intro g hg
    obtain ⟨site, e, he, hq⟩ := (r.mem_triggers_iff ..).mp hg
    exact ⟨site, e, he, leastFor_of_find? reached hq⟩

/-- **What one call does to an object.** It is recorded as misplaced exactly if it matches an entry of
some label, and of no label that leaves a current state. Then, and if it matches no entry at all, the
states stay and nothing else comes of it. Otherwise transitions fire, the call is not misplaced, and
the object is in just the states they lead to, where each effect that happens in one of them is due
once. The call is recorded as banned exactly if an open ban matches it, whatever the states; and
nothing is recorded twice. -/
theorem outcome_of_advance (r : Rule) (m : Matcher) (object : String) (current : List String)
    (call : Call) :
    let s := r.advance m object current call
    let misplaced := ∃ v ∈ s.violations, v.kind = .ordering
    (misplaced ↔ r.automaton.Knows m call.callee ∧ ¬ r.automaton.Allows m call.callee current) ∧
      (misplaced ∨ ¬ r.automaton.Knows m call.callee → Idle current s) ∧
      (s.fired ≠ [] ↔ r.automaton.Allows m call.callee current) ∧
      (s.fired ≠ [] → ¬ misplaced ∧ r.Moved call.site s) ∧
      ((∃ v ∈ s.violations, v.kind = .forbiddenCall) ↔
        ∃ b ∈ r.bans, b.silent = false ∧ m.Matches b.method call.callee) ∧
      (∀ other, ((r.advance m object other call).violations.filter
          fun v => v.kind == .forbiddenCall) =
        s.violations.filter fun v => v.kind == .forbiddenCall) ∧
      (s.violations.map Violation.kind).Nodup := by
  intro s misplaced
  have fires : s.fired ≠ [] ↔ r.automaton.Allows m call.callee current := by
    rw [← r.progressed_iff m object current call, Step.progressed]
    simp [s]
  have reported := r.exists_ordering_iff m object current call
  refine ⟨reported, fun h => ?_, fires, fun h => ⟨fun h' => ?_, ?_⟩, ?_, fun other => ?_, ?_⟩
  · refine r.idle_of_stuck m object current call (Bool.eq_false_iff.mpr fun moves => ?_)
    obtain ⟨t, ht, source, met⟩ := (r.progressed_iff m object current call).mp moves
    rcases h with h | unknown
    · exact (reported.mp h).2 ⟨t, ht, source, met⟩
    · exact unknown ⟨t, ht, met⟩
  · exact (reported.mp h').2 (fires.mp h)
  · exact r.moved_of_fired m object current call h
  · exact r.exists_forbiddenCall_iff m object current call
  · rw [forbidden_advance, forbidden_advance]
  · exact r.nodup_kinds_advance m object current call

/-- A finished digest can be relied on, and one of the vendor must not be reset. -/
def reliedDigest : Rule :=
  { digestRule with
    bans := [⟨.ofParams "Vendor.reset" [], [], false⟩]
    effects := [⟨⟨⟨"digested", [.self], false⟩, none⟩, none⟩] }

/-- A digest can be taken of a new object, but not once more of the vendor's. -/
theorem outcome_of_advance_digest :
    let first := reliedDigest.advance digestMatcher "d" ["new"] digestCall
    let again := reliedDigest.advance digestMatcher "d" first.states digestCall
    (first.fired ≠ [] ∧ first.states = ["vendor"] ∧ first.triggers = [⟨0, "vendor", "1"⟩] ∧
        reliedDigest.Moved "1" first) ∧
      (again.violations.map Violation.kind = [.ordering] ∧ Idle ["vendor"] again ∧
        reliedDigest.automaton.Knows digestMatcher digestCall.callee ∧
        ¬ reliedDigest.automaton.Allows digestMatcher digestCall.callee ["vendor"]) := by
  intro first again
  have fires : first.fired ≠ [] := by decide +kernel
  have there : first.states = ["vendor"] := by decide +kernel
  have kinds : again.violations.map Violation.kind = [.ordering] := by decide +kernel
  obtain ⟨-, -, -, moves, -⟩ := reliedDigest.outcome_of_advance digestMatcher "d" ["new"] digestCall
  obtain ⟨misplaced, idle, -⟩ :=
    reliedDigest.outcome_of_advance digestMatcher "d" first.states digestCall
  have reported : ∃ v ∈ again.violations, v.kind = .ordering :=
    List.mem_map.mp (kinds ▸ List.mem_singleton_self _)
  exact ⟨⟨fires, there, by decide +kernel, (moves fires).2⟩, kinds, there ▸ idle (.inl reported),
    there ▸ misplaced.mp reported⟩

end Rule

end Misuse
