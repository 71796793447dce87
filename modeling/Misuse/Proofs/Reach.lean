import Misuse.Proofs.Columns
import Misuse.Proofs.Repetition

/-!
# Whom a publication reaches

An effect establishes facts for the values of one object, and other objects look them up with
values of their own. A predicate is found after the publication if it was before, or if its
columns meet those of the effect, one by one (`finds_publish_iff`). So the facts are no more
than the cap allows and reach every object that shares a key at each term
(`lookup_of_reaches`). A value without a key counts only where no other value of its variable
has one (`lookup_publish_at_iff`): next to a known key it is passed over
(`lookup_of_mixed_keys`).
-/

namespace Misuse

/-! ## Stores that grow -/

namespace FactStore

variable {s : FactStore}

/-- What is visible stays so until facts of its name are retracted. -/
theorem Agrees.mem_visible_of_positive (h : s.Agrees) {fs : List Fact} {name : String}
    (hfs : ∀ f ∈ fs, f.name = name → f.negated = false) {args : Args}
    (hargs : args ∈ s.visible name) : args ∈ (s.publishAll fs).visible name := by
  induction fs generalizing s with
  | nil => exact hargs
  | cons f fs ih =>
    obtain ⟨hf, hfs⟩ := List.forall_mem_cons.mp hfs
    refine ih (h.publish f) hfs ?_
    rw [h.mem_visible_publish]
    by_cases hn : f.name = name
    · simp [hn, hf hn, hargs]
    · simp [hn, hargs]

theorem Agrees.query_of_positive (h : s.Agrees) {fs : List Fact} {name : String}
    (hfs : ∀ f ∈ fs, f.name = name → f.negated = false) {q : Args}
    (hq : s.query name q = true) : (s.publishAll fs).query name q = true := by
  obtain ⟨args, hargs, hu⟩ := (h.query_eq_true_iff name q).mp hq
  exact ((h.publishAll fs).query_eq_true_iff name q).mpr
    ⟨args, h.mem_visible_of_positive hfs hargs, hu⟩

/-- Established facts answer the queries they unify with. -/
theorem Agrees.query_publishAll_iff (h : s.Agrees) {fs : List Fact}
    (hfs : ∀ f ∈ fs, f.negated = false) (name : String) (q : Args) :
    (s.publishAll fs).query name q = true ↔
      s.query name q = true ∨ ∃ f ∈ fs, f.name = name ∧ Args.unify f.args q = true := by
  rw [(h.publishAll fs).query_eq_true_iff, h.query_eq_true_iff]
  constructor
  · rintro ⟨args, hargs, hu⟩
    rcases (h.mem_visible_publishAll hfs name args).mp hargs with hargs | ⟨f, hf, hn, rfl⟩
    · exact .inl ⟨args, hargs, hu⟩
    · exact .inr ⟨f, hf, hn, hu⟩
  · rintro (⟨args, hargs, hu⟩ | ⟨f, hf, hn, hu⟩)
    · exact ⟨args, (h.mem_visible_publishAll hfs name args).mpr (.inl hargs), hu⟩
    · exact ⟨f.args, (h.mem_visible_publishAll hfs name f.args).mpr (.inr ⟨f, hf, hn, rfl⟩), hu⟩

theorem Finds.of_positive (h : s.Agrees) {view : View} {a : Atom} (hfound : s.Finds view a)
    {fs : List Fact} (hfs : ∀ f ∈ fs, f.name = a.name → f.negated = false) :
    (s.publishAll fs).Finds view a := by
  obtain ⟨row, hrow, hq⟩ := hfound
  exact ⟨row, hrow, h.query_of_positive hfs hq⟩

/-- A determined predicate that is not negated holds if it is found. -/
theorem truth_lookup_eq_yes_iff (s : FactStore) (cap : Nat) {p : Predicate} {view : View}
    (hp : p.atom.negated = false) (hd : p.atom.Determined view cap) :
    (s.lookup cap p view).truth = .yes ↔ s.Finds view p.atom := by
  rw [s.truth_lookup, if_pos hd, hp]
  by_cases h : s.Finds view p.atom <;> simp [h, Truth.ofBool]

end FactStore

/-! ## One publication -/

section Publication

variable {r : Rule} {t : Trigger} {e : Effect} (he : r.effects[t.effect]? = some e)
  (hneg : e.predicate.atom.negated = false) (view : View) (cap : Nat)
include he hneg

theorem Rule.length_factsOf_le : (r.factsOf view cap t).length ≤ max cap 1 := by
  simp only [factsOf, he, List.length_map]
  exact e.predicate.atom.length_published_le view cap hneg

theorem Rule.positive_factsOf : ∀ f ∈ r.factsOf view cap t, f.negated = false := by
  intro f hf
  obtain ⟨e', he', -, hn⟩ := negated_of_mem_factsOf hf
  obtain rfl := Option.some.inj (he.symm.trans he')
  rw [hn, hneg]

/-- The facts of an effect are the rows of its columns. -/
theorem Rule.exists_mem_factsOf_iff (name : String) (p : Args → Prop) :
    (∃ f ∈ r.factsOf view cap t, f.name = name ∧ p f.args) ↔
      e.predicate.atom.name = name ∧
        ∃ row ∈ Key.rows (e.predicate.atom.terms.map
          (e.predicate.atom.establishedKeys view cap)), p row := by
  simp only [factsOf, he, e.predicate.atom.published_eq view cap hneg, List.mem_map]
  constructor
  · rintro ⟨_, ⟨row, hrow, rfl⟩, hname, hp⟩
    exact ⟨hname, row, hrow, hp⟩
  · rintro ⟨hname, row, hrow, hp⟩
    exact ⟨_, ⟨row, hrow, rfl⟩, hname, hp⟩

/-- **A predicate is found after a publication if it was before, or if its columns meet those
of the effect.** -/
theorem FactStore.finds_publish_iff {s : FactStore} (hs : s.Agrees) {a : Atom}
    (hname : e.predicate.atom.name = a.name) (other : View) :
    (s.publishAll (r.factsOf view cap t)).Finds other a ↔
      s.Finds other a ∨
        List.Forall₂ Key.Meet
          (e.predicate.atom.terms.map (e.predicate.atom.establishedKeys view cap))
          (a.columns other) := by
  have answers : ∀ q, (s.publishAll (r.factsOf view cap t)).query a.name q = true ↔
      s.query a.name q = true ∨ ∃ row ∈ Key.rows (e.predicate.atom.terms.map
        (e.predicate.atom.establishedKeys view cap)), Args.unify row q = true := by
    intro q
    rw [hs.query_publishAll_iff (Rule.positive_factsOf he hneg view cap),
      Rule.exists_mem_factsOf_iff he hneg view cap a.name fun row => Args.unify row q = true]
    simp only [hname, true_and]
  rw [← Key.exists_unify_rows_iff]
  unfold Finds
  simp only [answers]
  constructor
  · rintro ⟨q, hq, found | ⟨row, hrow, hu⟩⟩
    · exact .inl ⟨q, hq, found⟩
    · exact .inr ⟨row, hrow, q, hq, hu⟩
  · rintro (⟨q, hq, found⟩ | ⟨row, hrow, q, hq, hu⟩)
    · exact ⟨q, hq, .inl found⟩
    · exact ⟨q, hq, .inr ⟨row, hrow, hu⟩⟩

end Publication

/-! ## A generator of keys -/

def keyTerm : Term := .var (.whole "key" "Key")

def algTerm : Term := .var (.whole "alg" "String")

/-- A generator makes keys for an algorithm. -/
def generatorRule : Rule :=
  { Rule.empty "Generator" with
    declarations := [⟨"key", "Key"⟩, ⟨"alg", "String"⟩]
    automaton :=
      { states := [⟨"new", false⟩, ⟨"ready", true⟩]
        initial := ["new"]
        transitions :=
          [⟨"new", "ready", [⟨"Generator.generate", [⟨"alg", "String"⟩], ⟨"key", "Key"⟩⟩]⟩] }
    effects := [⟨.plain "generated" [keyTerm, algTerm], none⟩] }

def generation : Trigger := ⟨0, "ready", "1"⟩

/-- What is known of the key a generator has made for AES. -/
def generatorView (keys : List Value) : View :=
  ⟨"g", "g@1",
    [⟨"1", "key", .result, keys⟩, ⟨"1", "alg", .argument 0, [⟨.constant (.text "AES"), none⟩]⟩],
    []⟩

/-- A cipher is set up with a key. -/
def keyedView (key alg : String) : View :=
  ⟨"c", "c@1",
    [⟨"2", "key", .argument 0, [⟨.object key, none⟩]⟩,
     ⟨"2", "alg", .argument 1, [⟨.constant (.text alg), none⟩]⟩],
    []⟩

/-! ## Consumers -/

/-- A term of an effect reaches a term of a predicate: they share a key, one of them stands
for every value, or the effect has no value with a key. -/
def Term.Reaches (view other : View) (t u : Term) : Prop :=
  (∃ k ∈ t.keys view, k ∈ u.keys other) ∨ t.isWild = true ∨ u.isWild = true ∨ t.keys view = []

theorem Atom.meet_of_any_mem {view other : View} {cap : Nat} {a : Atom} {t u : Term}
    (h : Key.any ∈ a.establishedKeys view cap t) (hu : u.keys other ≠ []) :
    Key.Meet (a.establishedKeys view cap t) (u.keys other) := by
  obtain ⟨l, hl⟩ := List.exists_mem_of_ne_nil _ hu
  exact ⟨.any, h, l, hl, Key.unifies_any l⟩

theorem Atom.meet_of_reaches {view other : View} (cap : Nat) (a : Atom) {t u : Term}
    (h : t.Reaches view other u) (hu : u.keys other ≠ []) :
    Key.Meet (a.establishedKeys view cap t) (u.keys other) := by
  by_cases wide : t.keys view = [] ∨ a.Overruns view cap ∧ 1 < (t.keys view).length
  · exact meet_of_any_mem (by simp [establishedKeys, wide]) hu
  · have own : a.establishedKeys view cap t = t.keys view := if_neg wide
    rcases h with ⟨k, hk, hk'⟩ | ht | hw | hempty
    · exact ⟨k, own ▸ hk, k, hk', Key.unifies_self k⟩
    · exact meet_of_any_mem (by simp [own, Term.keys_of_isWild ht]) hu
    · obtain ⟨k, hk⟩ := List.exists_mem_of_ne_nil _ (a.establishedKeys_ne_nil view cap t)
      refine ⟨k, hk, .any, ?_, Key.unifies_any_right k⟩
      simp [Term.keys_of_isWild hw]
    · exact absurd (.inl hempty) wide

namespace FactStore

/-- **A publication reaches every consumer it should.** Whatever was published before, an effect
gives at most as many facts as the cap allows, or one. As long as no fact of their name is
retracted, a predicate of that name holds for every object whose keys are determined, if each
term of the effect reaches that of the predicate. -/
theorem lookup_of_reaches (ops : List Op) {r : Rule} {t : Trigger} {e : Effect}
    (he : r.effects[t.effect]? = some e) (hneg : e.predicate.atom.negated = false) (view : View)
    (cap : Nat) :
    (r.factsOf view cap t).length ≤ max cap 1 ∧
      ∀ (later : List Fact) (p : Predicate) (other : View) (cap' : Nat),
        p.atom.name = e.predicate.atom.name → p.atom.negated = false →
        (∀ f ∈ later, f.name = p.atom.name → f.negated = false) →
        p.atom.Determined other cap' →
        List.Forall₂ (Term.Reaches view other) e.predicate.atom.terms p.atom.terms →
        ((((after ops).publishAll (r.factsOf view cap t)).publishAll later).lookup
          cap' p other).truth = .yes := by
  refine ⟨Rule.length_factsOf_le he hneg view cap, ?_⟩
  intro later p other cap' hname hp hlater hd hreach
  have agrees := agrees_after ops
  have meet : List.Forall₂ Key.Meet
      (e.predicate.atom.terms.map (e.predicate.atom.establishedKeys view cap))
      (p.atom.columns other) := by
    rw [Atom.columns, List.forall₂_map_left_iff, List.forall₂_map_right_iff]
    have full : List.Forall₂ (fun u t => u.keys other ≠ [] ∧ Term.Reaches view other t u)
        p.atom.terms e.predicate.atom.terms :=
      (List.forall₂_and_left _ _).mpr ⟨hd.1, hreach.flip⟩
    exact full.flip.imp fun t u h => Atom.meet_of_reaches cap _ h.2 h.1
  rw [truth_lookup_eq_yes_iff _ cap' hp hd]
  have found := (finds_publish_iff he hneg view cap agrees hname.symm other).mpr (.inr meet)
  exact found.of_positive (agrees.publishAll _) hlater

/-- Two keys are too many for the cap, and the algorithm is written in another case. -/
theorem lookup_of_reaches_keys :
    let p : Predicate := .plain "generated" [keyTerm, algTerm]
    let view := generatorView [⟨.object "k@1", none⟩, ⟨.object "k@2", none⟩]
    let other := keyedView "k@2" "aes"
    let facts := generatorRule.factsOf view 1 generation
    let later : List Fact := [⟨"read", [.any], true, ⟨"Key", "k", "ready", "3"⟩⟩]
    generatorRule.effects[generation.effect]? = some ⟨p, none⟩ ∧
      facts.map Fact.args = [[.any, .constant "aes"]] ∧
      (∀ f ∈ later, f.name = "generated" → f.negated = false) ∧
      p.atom.Determined other 1 ∧
      List.Forall₂ (Term.Reaches view other) [keyTerm, algTerm] [keyTerm, algTerm] ∧
      ((((after []).publishAll facts).publishAll later).lookup 1 p other).truth = .yes := by
  intro p view other facts later
  have effect : generatorRule.effects[generation.effect]? = some ⟨p, none⟩ := rfl
  have positive : ∀ f ∈ later, f.name = "generated" → f.negated = false := by decide
  have determined : p.atom.Determined other 1 := by decide
  have reaches : List.Forall₂ (Term.Reaches view other) [keyTerm, algTerm] [keyTerm, algTerm] :=
    .cons (.inl ⟨.object "k@2", by decide, by decide⟩)
      (.cons (.inl ⟨.constant "aes", by decide +kernel, by decide +kernel⟩) .nil)
  exact ⟨effect, by decide +kernel, positive, determined, reaches,
    (lookup_of_reaches [] effect rfl view 1).2 later p other 1 rfl rfl positive determined
      reaches⟩

end FactStore

/-! ## Values without a key -/

theorem Term.mem_keys_var_iff (view : View) (v : Variable) (k : Key) :
    k ∈ (Term.var v).keys view ↔ ∃ x ∈ view.valuesOf v.name, Key.ofValue? v x.2 = some k := by
  simp only [keys, Sorted.mem_ofList, List.mem_filterMap]

theorem Term.keys_var_eq_nil_iff (view : View) (v : Variable) :
    (Term.var v).keys view = [] ↔ ∀ x ∈ view.valuesOf v.name, Key.ofValue? v x.2 = none := by
  simp only [List.eq_nil_iff_forall_not_mem, mem_keys_var_iff, not_exists, not_and]
  constructor
  · intro h x hx
    exact Option.eq_none_iff_forall_ne_some.mpr fun k => h k x hx
  · intro h k x hx hk
    rw [h x hx] at hk
    cases hk

/-- A value has a key of its own. -/
theorem Key.ofValue?_ne_any (v : Variable) (x : Value) : Key.ofValue? v x ≠ some .any := by
  unfold ofValue?
  cases x.content with
  | object id => simp
  | unknown => simp
  | constant c => cases cutText? v.cut (textOfConstant c) <;> simp

/-- What is established for a variable meets every key if none of its values has one, or if
several have and the combinations exceed the cap. -/
theorem Atom.meet_var_iff {view other : View} {cap : Nat} {a : Atom} {v : Variable} {u : Term}
    (hu : u.keys other ≠ []) :
    Key.Meet (a.establishedKeys view cap (.var v)) (u.keys other) ↔
      (∀ x ∈ view.valuesOf v.name, Key.ofValue? v x.2 = none) ∨
      (a.Overruns view cap ∧ 1 < ((Term.var v).keys view).length) ∨
      Key.any ∈ u.keys other ∨ ∃ k ∈ (Term.var v).keys view, k ∈ u.keys other := by
  rw [← Term.keys_var_eq_nil_iff, ← or_assoc]
  by_cases wide : (Term.var v).keys view = [] ∨
      a.Overruns view cap ∧ 1 < ((Term.var v).keys view).length
  · exact iff_of_true (meet_of_any_mem (by simp [establishedKeys, wide]) hu) (.inl wide)
  · have own : a.establishedKeys view cap (.var v) = (Term.var v).keys view := if_neg wide
    rw [own, or_iff_right wide]
    constructor
    · rintro ⟨k, hk, l, hl, unified⟩
      -- an established key belongs to a value, so only the key asked for can be every value
      have ne : k ≠ .any := by
        rintro rfl
        obtain ⟨x, -, hx⟩ := (Term.mem_keys_var_iff view v .any).mp hk
        exact Key.ofValue?_ne_any v x.2 hx
      by_cases hany : l = .any
      · exact .inl (hany ▸ hl)
      · obtain rfl := (Key.unifies_eq_true_iff ne hany).mp unified
        exact .inr ⟨k, hk, hl⟩
    · rintro (hany | ⟨k, hk, hk'⟩)
      · obtain ⟨k, hk⟩ := List.exists_mem_of_ne_nil _ fun h => wide (.inl h)
        exact ⟨k, hk, .any, hany, Key.unifies_any_right k⟩
      · exact ⟨k, hk, k, hk', Key.unifies_self k⟩

/-- Two atoms have as many terms, and all but those at one place share an established key. -/
def Atom.SharesBut (i : Nat) (view : View) (cap : Nat) (a : Atom) (other : View) (b : Atom) :
    Prop :=
  a.terms.length = b.terms.length ∧
    ∀ j t u, j ≠ i → a.terms[j]? = some t → b.terms[j]? = some u →
      ∃ k ∈ a.establishedKeys view cap t, k ∈ u.keys other

/-- Where all other columns meet, the columns at one place decide. -/
theorem Atom.SharesBut.forall₂_meet_iff {i : Nat} {view other : View} {cap : Nat} {a b : Atom}
    (h : a.SharesBut i view cap other b) {t u : Term} (ht : a.terms[i]? = some t)
    (hu : b.terms[i]? = some u) :
    List.Forall₂ Key.Meet (a.terms.map (a.establishedKeys view cap)) (b.columns other) ↔
      Key.Meet (a.establishedKeys view cap t) (u.keys other) := by
  rw [columns, List.forall₂_map_left_iff, List.forall₂_map_right_iff, List.forall₂_iff_get]
  obtain ⟨hi, rfl⟩ := List.getElem?_eq_some_iff.mp ht
  obtain ⟨hi', rfl⟩ := List.getElem?_eq_some_iff.mp hu
  constructor
  · intro meet
    exact meet.2 i hi hi'
  · intro here
    refine ⟨h.1, fun j hj hj' => ?_⟩
    by_cases hji : j = i
    · subst hji
      exact here
    · obtain ⟨k, hk, hk'⟩ := h.2 j _ _ hji (List.getElem?_eq_getElem hj)
        (List.getElem?_eq_getElem hj')
      exact ⟨k, hk, k, hk', Key.unifies_self k⟩

namespace FactStore

/-- **When a value without a key counts.** Take an effect, a variable among its terms, and a
predicate of its name that carries an established key at every other term. After the
publication it holds exactly if it held before, if no value of the variable has a key, if
several have and the combinations exceed the cap, or if the predicate carries one of the keys
there, or every value. -/
theorem lookup_publish_at_iff (ops : List Op) {r : Rule} {t : Trigger} {e : Effect}
    (he : r.effects[t.effect]? = some e) (hneg : e.predicate.atom.negated = false) (view : View)
    (cap : Nat) {i : Nat} {v : Variable} (hv : e.predicate.atom.terms[i]? = some (.var v))
    {p : Predicate} {u : Term} (hu : p.atom.terms[i]? = some u)
    (hname : p.atom.name = e.predicate.atom.name) (hp : p.atom.negated = false) {other : View}
    {cap' : Nat} (hd : p.atom.Determined other cap')
    (hshares : e.predicate.atom.SharesBut i view cap other p.atom) :
    (((after ops).publishAll (r.factsOf view cap t)).lookup cap' p other).truth = .yes ↔
      ((after ops).lookup cap' p other).truth = .yes ∨
      (∀ x ∈ view.valuesOf v.name, Key.ofValue? v x.2 = none) ∨
      (e.predicate.atom.Overruns view cap ∧ 1 < ((Term.var v).keys view).length) ∨
      Key.any ∈ u.keys other ∨ ∃ k ∈ (Term.var v).keys view, k ∈ u.keys other := by
  have keyed : u.keys other ≠ [] := hd.1 u (List.mem_of_getElem? hu)
  rw [truth_lookup_eq_yes_iff _ cap' hp hd, truth_lookup_eq_yes_iff _ cap' hp hd,
    finds_publish_iff he hneg view cap (agrees_after ops) hname.symm other,
    hshares.forall₂_meet_iff hv hu, Atom.meet_var_iff keyed]

theorem keys_algTerm {view : View} {site : String}
    (h : view.valuesOf "alg" = [(site, ⟨.constant (.text "AES"), none⟩)]) :
    algTerm.keys view = [.constant "aes"] := by
  have lowered : Text.lower "AES" = "aes" := by decide +kernel
  simp [algTerm, Term.keys, Variable.whole, h, Key.ofValue?, Key.textOfConstant,
    Constant.asText?, cutText?, lowered, Sorted.ofList, Sorted.insert]

/-- The generator and the cipher agree on the algorithm, whatever is known of the keys. -/
theorem sharesBut_generated (keys : List Value) (cap : Nat) (key : String) :
    (Predicate.plain "generated" [keyTerm, algTerm]).atom.SharesBut 0 (generatorView keys) cap
      (keyedView key "AES") (Predicate.plain "generated" [keyTerm, algTerm]).atom := by
  have made : algTerm.keys (generatorView keys) = [.constant "aes"] := keys_algTerm rfl
  have asked : algTerm.keys (keyedView key "AES") = [.constant "aes"] := keys_algTerm rfl
  refine ⟨rfl, fun j t u hj ht hu => ?_⟩
  cases j with
  | zero => exact absurd rfl hj
  | succ j =>
    cases j with
    | zero =>
      obtain rfl : algTerm = t := Option.some.inj ht
      obtain rfl : algTerm = u := Option.some.inj hu
      exact ⟨.constant "aes", by simp [Atom.establishedKeys, made], by simp [asked]⟩
    | succ j => cases ht

/-- Nothing is known of the key, so it counts as every key. -/
theorem lookup_publish_at_unknown_key :
    let p : Predicate := .plain "generated" [keyTerm, algTerm]
    let view := generatorView [.unresolved]
    let other := keyedView "k@2" "AES"
    let facts := generatorRule.factsOf view Context.defaultCap generation
    generatorRule.effects[generation.effect]? = some ⟨p, none⟩ ∧
      p.atom.Determined other Context.defaultCap ∧
      p.atom.SharesBut 0 view Context.defaultCap other p.atom ∧
      (((after []).publishAll facts).lookup Context.defaultCap p other).truth = .yes := by
  intro p view other facts
  have effect : generatorRule.effects[generation.effect]? = some ⟨p, none⟩ := rfl
  have determined : p.atom.Determined other Context.defaultCap := by decide
  have shares : p.atom.SharesBut 0 view Context.defaultCap other p.atom :=
    sharesBut_generated [.unresolved] Context.defaultCap "k@2"
  have keyless : ∀ x ∈ view.valuesOf "key", Key.ofValue? (.whole "key" "Key") x.2 = none := by
    decide
  exact ⟨effect, determined, shares,
    (lookup_publish_at_iff [] effect rfl view Context.defaultCap (i := 0) rfl (u := keyTerm) rfl rfl
      rfl determined shares).mpr (.inr (.inl keyless))⟩

end FactStore

namespace Session

/-- The cipher needs a generated key. -/
def keyedRule : Rule :=
  { Rule.empty "Cipher" with
    declarations := [⟨"key", "Key"⟩, ⟨"alg", "String"⟩]
    automaton :=
      { states := [⟨"new", false⟩, ⟨"ready", true⟩]
        initial := ["new"]
        transitions :=
          [⟨"new", "ready", [.ofParams "Cipher.init" [⟨"key", "Key"⟩, ⟨"alg", "String"⟩]]⟩] }
    constraints := [.atom ⟨"generated", [keyTerm, algTerm], false⟩] }

def keyedSession : Session :=
  { guardedSession with rules := (Rulebook.empty.insert false generatorRule).insert false keyedRule }

/-- The generator may have made one of two keys. One of them is known, and the cipher has
another key. -/
def mixedOps : List Op :=
  [.track "g" "g@1" "Generator", .track "c" "c@1" "Cipher",
   .observe "g" ⟨"1", ⟨"Generator", "generate", ["String"]⟩, "Generator"⟩,
   .observe "c" ⟨"2", ⟨"Cipher", "init", ["Key", "String"]⟩, "Cipher"⟩,
   .supply ⟨"g", "1", "key", .result⟩ [⟨.object "k@1", none⟩, .unresolved],
   .supply ⟨"g", "1", "alg", .argument 0⟩ [⟨.constant (.text "AES"), none⟩],
   .supply ⟨"c", "2", "key", .argument 0⟩ [⟨.object "k@2", none⟩],
   .supply ⟨"c", "2", "alg", .argument 1⟩ [⟨.constant (.text "AES"), none⟩]]

/-- One key of the generator is known and the other is not. Only the known one is published,
so the predicate is missing for a cipher with any other key. -/
theorem lookup_of_mixed_keys :
    let p : Predicate := .plain "generated" [keyTerm, algTerm]
    let view := generatorView [⟨.object "k@1", none⟩, .unresolved]
    let other := keyedView "k@2" "AES"
    let facts := generatorRule.factsOf view Context.defaultCap generation
    generatorRule.effects[generation.effect]? = some ⟨p, none⟩ ∧
      (∃ x ∈ view.valuesOf "key", Key.ofValue? (.whole "key" "Key") x.2 = none) ∧
      facts.map Fact.args = [[.object "k@1", .constant "aes"]] ∧
      p.atom.Determined other Context.defaultCap ∧
      p.atom.SharesBut 0 view Context.defaultCap other p.atom ∧
      ((FactStore.empty.publishAll facts).lookup Context.defaultCap p other).truth = .no ∧
      start keyedSession.settings keyedSession.rules keyedSession.subtyping = .ok keyedSession ∧
      keyedSession.rules.rejected = [] ∧
      (keyedSession.run mixedOps).finish.records.map Violation.kind = [.missingPredicate] := by
  intro p view other facts
  exact ⟨rfl, by decide, by decide +kernel, by decide, FactStore.sharesBut_generated _ _ _,
    by decide +kernel, rfl, by decide, by decide +kernel⟩

end Session

end Misuse
