import Misuse.Proofs.Runs

/-!
# What guards look up

A verdict depends on the facts only through the names that the constraint looks up, those
of guards within it included (`evaluate_congr`). So two stores that answer alike for the
names in the guards of a rule decide the fates of its effects alike (`fate_congr`), and
publishing facts of other names makes no difference (`query_publishAll_of_ne`).
-/

namespace Misuse

/-! ## Constraints -/

/-- The constraint is judged with another lookup. -/
def Context.withLookup (ctx : Context) (lookup : Lookup) : Context := { ctx with lookup }

theorem Context.applies_congr (ctx : Context) (lookup : Lookup) (p : Predicate)
    (h : p.isLookup = true → ctx.lookup p ctx.view = lookup p ctx.view) :
    ctx.applies p = (ctx.withLookup lookup).applies p := by
  unfold applies
  cases hb : p.atom.builtin? with
  | some b => cases b <;> rfl
  | none => exact h (by simp [Predicate.isLookup, Atom.isLookup, hb])

namespace Constraint

/-- **A verdict depends on what the predicates of the constraint look up.** -/
theorem evaluate_congr (ctx : Context) (lookup : Lookup) (c : Constraint)
    (h : ∀ p ∈ c.predicates, p.isLookup = true → ctx.lookup p ctx.view = lookup p ctx.view) :
    c.evaluate ctx = c.evaluate (ctx.withLookup lookup) := by
  induction c with
  | member v allowed => rfl
  | arithmetic e => rfl
  | compare l op r => rfl
  | connect l op r ihl ihr =>
    have hl := ihl fun p hp => h p (List.mem_append_right _ hp)
    have hr := ihr fun p hp => h p (List.mem_append_left _ hp)
    simp only [evaluate, hl, hr]
  | atom a => exact ctx.applies_congr lookup ⟨a, none⟩ (h _ (List.mem_singleton_self _))
  | guarded a g ih =>
    have hg := ih fun p hp => h p (List.mem_cons_of_mem _ hp)
    have ha := ctx.applies_congr lookup ⟨a, some g⟩ (h _ (List.mem_cons_self ..))
    simp only [evaluate, hg, ha]
  | throws m exception => rfl

/-- The names of the facts a constraint looks up. -/
def namesLookedUp (c : Constraint) : List String :=
  (c.predicates.filter Predicate.isLookup).map fun p => p.atom.name

end Constraint

/-! ## Effects -/

namespace Rule

/-- The names of the facts that the guards of the effects look up. -/
def guardNames (r : Rule) : List String :=
  r.effects.flatMap fun e =>
    match e.predicate.guard with
    | some g => g.namesLookedUp
    | none => []

/-- The names of the facts that the effects establish. -/
def establishedNames (r : Rule) : List String := r.established.map fun e => e.predicate.atom.name

/-- The names of the facts that the effects establish or retract. -/
def effectNames (r : Rule) : List String := r.effects.map fun e => e.predicate.atom.name

theorem establishedNames_subset (r : Rule) : ∀ name ∈ r.establishedNames, name ∈ r.effectNames := by
  intro name hn
  obtain ⟨e, he, rfl⟩ := List.mem_map.mp hn
  exact List.mem_map_of_mem (List.mem_filter.mp he).1

theorem name_mem_effectNames {r : Rule} {view : View} {cap : Nat} {t : Trigger} {f : Fact}
    (h : f ∈ r.factsOf view cap t) : f.name ∈ r.effectNames := by
  obtain ⟨e, he, hname, -⟩ := negated_of_mem_factsOf h
  exact List.mem_map.mpr ⟨e, List.mem_of_getElem? he, hname.symm⟩

theorem namesLookedUp_subset {r : Rule} {i : Nat} {e : Effect} {g : Constraint}
    (he : r.effects[i]? = some e) (hg : e.predicate.guard = some g) :
    ∀ name ∈ g.namesLookedUp, name ∈ r.guardNames := by
  intro name hn
  refine List.mem_flatMap.mpr ⟨e, List.mem_of_getElem? he, ?_⟩
  rw [hg]
  exact hn

theorem name_mem_establishedNames {r : Rule} {view : View} {cap : Nat} {t : Trigger} {f : Fact}
    (h : f ∈ r.factsOf view cap t) (hf : f.negated = false) : f.name ∈ r.establishedNames := by
  obtain ⟨e, he, hname, hneg⟩ := negated_of_mem_factsOf h
  refine List.mem_map.mpr ⟨e, List.mem_filter.mpr ⟨List.mem_of_getElem? he, ?_⟩, hname.symm⟩
  rw [hneg] at hf
  simp [Effect.isRetraction, hf]

end Rule

/-! ## Stores that answer alike -/

namespace FactStore

/-- Two stores answer every query about this name alike. -/
def Same (s t : FactStore) (name : String) : Prop := ∀ args, s.query name args = t.query name args

theorem lookup_congr {s t : FactStore} {p : Predicate} (h : s.Same t p.atom.name) (cap : Nat)
    (view : View) : s.lookup cap p view = t.lookup cap p view := by
  unfold lookup
  simp only [h _]

/-- Stores that agree with their logs answer alike if the same lists are visible. -/
theorem same_of_visible {s t : FactStore} (hs : s.Agrees) (ht : t.Agrees) {name : String}
    (h : s.visible name = t.visible name) : s.Same t name := by
  intro args
  rw [Bool.eq_iff_iff, hs.query_eq_true_iff, ht.query_eq_true_iff, h]

theorem query_publishAll_of_ne {s : FactStore} {fs : List Fact} {name : String}
    (h : ∀ f ∈ fs, f.name ≠ name) : (s.publishAll fs).Same s name := by
  intro args
  rw [query_eq, query_eq, indexFor_publishAll_of_ne h]

end FactStore

namespace Session

variable (s : Session) {store store' : FactStore}

theorem guardTruth_congr {o : Tracked} {p : Predicate}
    (h : ∀ g, p.guard = some g → ∀ name ∈ g.namesLookedUp, store.Same store' name) :
    guardTruth (s.context store o) p = guardTruth (s.context store' o) p := by
  unfold guardTruth
  cases hg : p.guard with
  | none => rfl
  | some g =>
    have := g.evaluate_congr (s.context store o)
      (store'.lookup s.settings.constraints.maxCombinations) fun q hq hlookup =>
        FactStore.lookup_congr (h g hg q.atom.name (List.mem_map.mpr
          ⟨q, List.mem_filter.mpr ⟨hq, hlookup⟩, rfl⟩)) _ _
    exact congrArg Verdict.truth this

/-- **The fates of effects depend on what the guards of the rule look up.** -/
theorem fate_congr {o : Tracked} (h : ∀ name ∈ o.rule.guardNames, store.Same store' name)
    (waiting : List String) (t : Trigger) :
    s.fate waiting store o t = s.fate waiting store' o t := by
  unfold fate
  cases he : o.rule.effects[t.effect]? with
  | none => rfl
  | some e =>
    have truth : guardTruth (s.context store o) e.predicate =
        guardTruth (s.context store' o) e.predicate :=
      s.guardTruth_congr fun g hg name hn => h name (Rule.namesLookedUp_subset he hg name hn)
    simp only [truth]

/-- Which variables are waited for matters, not how often or in which order. -/
theorem fate_waiting {waiting waiting' : List String} (h : ∀ x, x ∈ waiting ↔ x ∈ waiting')
    (o : Tracked) (t : Trigger) : s.fate waiting store o t = s.fate waiting' store o t := by
  have : waiting.contains = waiting'.contains := by
    funext x
    rw [Bool.eq_iff_iff, List.contains_iff_mem, List.contains_iff_mem, h]
  unfold fate
  rw [this]

/-- **What is judged depends on what the store answers.** -/
theorem judgement_congr {s t : Session} (hf : s.frame = t.frame)
    (hs : ∀ name, s.store.Same t.store name) : s.judgement = t.judgement := by
  obtain ⟨settings, -, subtyping⟩ := frame_eq_iff.mp hf
  have lookups : ∀ cap, s.store.lookup cap = t.store.lookup cap := by
    intro cap
    funext p view
    exact FactStore.lookup_congr (hs p.atom.name) cap view
  funext o
  unfold judgement context
  rw [settings, subtyping, lookups]

theorem yields_frame {s t : Session} (h : s.frame = t.frame) : s.yields = t.yields := by
  obtain ⟨settings, -, subtyping⟩ := frame_eq_iff.mp h
  funext waiting store o d
  unfold yields fate context
  rw [settings, subtyping]

theorem yields_congr {o : Tracked} (h : ∀ name ∈ o.rule.guardNames, store.Same store' name)
    (waiting : List String) (t : Trigger) :
    s.yields waiting store o t = s.yields waiting store' o t := by
  unfold yields
  rw [s.fate_congr h]

end Session

end Misuse
