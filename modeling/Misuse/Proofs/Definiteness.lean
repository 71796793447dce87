import Misuse.Proofs.Completion
import Misuse.Proofs.Reach

/-!
# How definite a lookup is

A lookup asks for the keys that are known and passes over values without one. What is learnt
of a value adds keys and takes none away (`keys_completed`), so a row that is found stays
found. A lookup that finds nothing is definite as well, but may find a row with a key that is
learnt later (`lookup_completed_iff`): one site with a known key is enough for a predicate to
be missing, whatever the key at another site is (`missing_of_unresolved_key`).
-/

namespace Misuse

/-! ## Keys that are learnt -/

theorem Key.ofValue?_completed (v : Variable) {x y : Value} (h : x.Completed y) :
    Learnt (ofValue? v x) (ofValue? v y) := by
  rcases h.content with unknown | same
  · exact .inl (by simp only [ofValue?, unknown])
  · exact .inr (by simp only [ofValue?, same])

/-- A value of which nothing is left to learn keeps its key. -/
theorem Key.ofValue?_of_isResolved (v : Variable) {x y : Value} (h : x.Completed y)
    (hx : x.isResolved = true) : ofValue? v y = ofValue? v x := by
  rcases h.content with unknown | same
  · simp [Value.isResolved, unknown] at hx
  · simp only [ofValue?, same]

theorem exists_mem_of_forall₂ {α β : Type} {R : α → β → Prop} {xs : List α} {ys : List β}
    (h : List.Forall₂ R xs ys) {x : α} (hx : x ∈ xs) : ∃ y ∈ ys, R x y := by
  induction h with
  | nil => cases hx
  | cons head _ ih =>
    rcases List.mem_cons.mp hx with rfl | hx
    · exact ⟨_, List.mem_cons_self, head⟩
    · obtain ⟨y, hy, hxy⟩ := ih hx
      exact ⟨y, List.mem_cons_of_mem _ hy, hxy⟩

section Keys

variable {v w : View} (h : v.Completed w)
include h

/-- No key is taken away. -/
theorem Term.keys_completed (t : Term) : t.keys v ⊆ t.keys w := by
  cases t with
  | self => simp only [keys, h.self, List.Subset.refl]
  | var x =>
    intro k hk
    obtain ⟨a, ha, key⟩ := (mem_keys_var_iff v x k).mp hk
    obtain ⟨b, hb, -, hab⟩ := exists_mem_of_forall₂ (h.valuesOf x.name) ha
    refine (mem_keys_var_iff w x k).mpr ⟨b, hb, ?_⟩
    rcases Key.ofValue?_completed x hab with keyless | same
    · rw [keyless] at key
      cases key
    · rw [same, key]
  | _ => exact List.Subset.refl _

/-- No key is added where every value is resolved. -/
theorem Term.keys_subset_of_resolved {t : Term}
    (ht : ∀ x, t = .var x → ∀ a ∈ v.valuesOf x.name, a.2.isResolved = true) :
    t.keys w ⊆ t.keys v := by
  cases t with
  | self => simp only [keys, h.self, List.Subset.refl]
  | var x =>
    intro k hk
    obtain ⟨b, hb, key⟩ := (mem_keys_var_iff w x k).mp hk
    obtain ⟨a, ha, -, hab⟩ := exists_mem_of_forall₂ (h.valuesOf x.name).flip hb
    refine (mem_keys_var_iff v x k).mpr ⟨a, ha, ?_⟩
    rw [← Key.ofValue?_of_isResolved x hab (ht x rfl a ha), key]
  | _ => exact List.Subset.refl _

end Keys

/-! ## Rows that are found -/

/-- More keys give more rows. -/
theorem Atom.rows_subset {a : Atom} {v w : View} (h : ∀ t ∈ a.terms, t.keys v ⊆ t.keys w) :
    Key.rows (a.columns v) ⊆ Key.rows (a.columns w) := by
  intro row hrow
  rw [Key.mem_rows_iff, columns, List.forall₂_map_right_iff] at hrow ⊢
  have keyed : List.Forall₂ (fun t k => t.keys v ⊆ t.keys w ∧ k ∈ t.keys v) a.terms row :=
    (List.forall₂_and_left _ _).mpr ⟨h, hrow.flip⟩
  exact (keyed.imp fun t k hk => hk.1 hk.2).flip

namespace FactStore

variable {s : FactStore} {v w : View} {a : Atom}

theorem Finds.of_subset (hfound : s.Finds v a)
    (hrows : Key.rows (a.columns v) ⊆ Key.rows (a.columns w)) : s.Finds w a := by
  obtain ⟨row, hrow, hq⟩ := hfound
  exact ⟨row, hrows hrow, hq⟩

theorem truth_lookup_ne_unclear_iff (s : FactStore) (cap : Nat) (p : Predicate) (view : View) :
    (s.lookup cap p view).truth ≠ .unclear ↔ p.atom.Determined view cap := by
  rw [truth_lookup]
  by_cases h : p.atom.Determined view cap
  · cases decide (s.Finds view p.atom) != p.atom.negated <;> simp [h, Truth.ofBool]
  · simp [h]

/-- Definite lookups of an atom agree if they both find a row or both do not. -/
theorem truth_lookup_eq_iff (s : FactStore) {cap : Nat} {p : Predicate}
    (hv : p.atom.Determined v cap) (hw : p.atom.Determined w cap) :
    (s.lookup cap p w).truth = (s.lookup cap p v).truth ↔
      (s.Finds w p.atom ↔ s.Finds v p.atom) := by
  rw [truth_lookup, truth_lookup, if_pos hv, if_pos hw]
  by_cases found : s.Finds v p.atom <;> by_cases found' : s.Finds w p.atom <;>
    cases p.atom.negated <;> simp [found, found', Truth.ofBool]

/-- **A definite lookup stays definite, but not always the same.** Whatever is learnt of the
values of an object, as long as the combinations stay within the cap, a definite lookup gives
the same truth exactly if it had found a row or finds none of those with a key that is learnt.
It does if all values of its variables were resolved. -/
theorem lookup_completed_iff (s : FactStore) {v w : View} (h : v.Completed w) {cap : Nat}
    {p : Predicate} (hdef : (s.lookup cap p v).truth ≠ .unclear)
    (hcap : Key.rowCount (p.atom.columns w) ≤ max cap 1) :
    (s.lookup cap p w).truth ≠ .unclear ∧
      ((s.lookup cap p w).truth = (s.lookup cap p v).truth ↔
        s.Finds v p.atom ∨ ∀ row ∈ Key.rows (p.atom.columns w),
          row ∉ Key.rows (p.atom.columns v) → s.query p.atom.name row = false) ∧
      ((∀ x, Term.var x ∈ p.atom.terms → ∀ a ∈ v.valuesOf x.name, a.2.isResolved = true) →
        (s.lookup cap p w).truth = (s.lookup cap p v).truth) := by
  have hv := (s.truth_lookup_ne_unclear_iff cap p v).mp hdef
  have keys : ∀ t ∈ p.atom.terms, t.keys v ⊆ t.keys w := fun t _ => t.keys_completed h
  have rows := Atom.rows_subset keys
  have hw : p.atom.Determined w cap := by
    refine ⟨fun t ht => ?_, hcap⟩
    obtain ⟨k, hk⟩ := List.exists_mem_of_ne_nil _ (hv.1 t ht)
    exact List.ne_nil_of_mem (keys t ht hk)
  refine ⟨(s.truth_lookup_ne_unclear_iff cap p w).mpr hw, ?_, ?_⟩
  · rw [s.truth_lookup_eq_iff hv hw]
    constructor
    · intro agree
      by_cases found : s.Finds v p.atom
      · exact .inl found
      · refine .inr fun row hrow _ => Bool.eq_false_iff.mpr fun hq => ?_
        exact found (agree.mp ⟨row, hrow, hq⟩)
    · rintro (found | silent)
      · exact iff_of_true (found.of_subset rows) found
      · refine ⟨?_, fun found => found.of_subset rows⟩
        -- a row that is found afterwards has no learnt key, so it was asked for before
        rintro ⟨row, hrow, hq⟩
        by_cases known : row ∈ Key.rows (p.atom.columns v)
        · exact ⟨row, known, hq⟩
        · rw [silent row hrow known] at hq
          cases hq
  · intro resolved
    have back : Key.rows (p.atom.columns w) ⊆ Key.rows (p.atom.columns v) :=
      Atom.rows_subset fun t ht => Term.keys_subset_of_resolved h fun x hx => resolved x (hx ▸ ht)
    rw [s.truth_lookup_eq_iff hv hw]
    exact ⟨fun found => found.of_subset back, fun found => found.of_subset rows⟩

end FactStore

/-! ## A key that is not known -/

/-- A cipher is set up with one key and reset with another. -/
def resetView (other : Value) : View :=
  ⟨"c", "c@1",
    [⟨"2", "key", .argument 0, [⟨.object "k@1", none⟩]⟩, ⟨"3", "key", .argument 0, [other]⟩],
    [⟨"2", ⟨"Cipher", "init", ["Key"]⟩, "Cipher"⟩, ⟨"3", ⟨"Cipher", "reset", ["Key"]⟩, "Cipher"⟩]⟩

theorem completed_resetView (other : Value) (h : other.staticType = none) :
    (resetView .unresolved).Completed (resetView other) :=
  ⟨rfl, rfl, rfl, .cons ⟨rfl, rfl, rfl, .cons ⟨.inr rfl, rfl⟩ .nil⟩
    (.cons ⟨rfl, rfl, rfl, .cons ⟨.inl rfl, h⟩ .nil⟩ .nil)⟩

def generatedStore (keys : List String) : FactStore :=
  FactStore.empty.publishAll
    (keys.map fun k => ⟨"generated", [.object k], false, ⟨"Key", k, "ready", "1"⟩⟩)

/-- The first key was generated, and the lookup holds whatever the second one is. -/
theorem FactStore.lookup_completed_generated :
    let p : Predicate := .plain "generated" [keyTerm]
    let s := generatedStore ["k@1"]
    let v := resetView .unresolved
    let w := resetView ⟨.object "k@2", none⟩
    v.Completed w ∧ (s.lookup 2 p v).truth ≠ .unclear ∧
      Key.rowCount (p.atom.columns w) ≤ max 2 1 ∧
      (s.lookup 2 p w).truth = (s.lookup 2 p v).truth := by
  intro p s v w
  have completed : v.Completed w := completed_resetView _ rfl
  have definite : (s.lookup 2 p v).truth ≠ .unclear := by decide
  have within : Key.rowCount (p.atom.columns w) ≤ max 2 1 := by decide
  have found : s.Finds v p.atom := by decide
  exact ⟨completed, definite, within,
    (lookup_completed_iff s completed definite within).2.1.mpr (.inl found)⟩

namespace Session

/-- The key of a cipher has to be generated. -/
def rekeyedRule : Rule :=
  { Rule.empty "Cipher" with
    declarations := [⟨"key", "Key"⟩]
    automaton :=
      { states := [⟨"new", false⟩, ⟨"ready", true⟩]
        initial := ["new"]
        transitions :=
          [⟨"new", "ready", [.ofParams "Cipher.init" [⟨"key", "Key"⟩]]⟩,
           ⟨"ready", "ready", [.ofParams "Cipher.reset" [⟨"key", "Key"⟩]]⟩] }
    constraints := [.atom ⟨"generated", [keyTerm], false⟩] }

def rekeyedSession : Session :=
  { guardedSession with rules := (Rulebook.empty.insert false keyRule).insert false rekeyedRule }

/-- The first key of the cipher is known and was not generated. -/
def rekeyedOps : List Op :=
  [.track "k" "k@2" "Key", .track "c" "c@1" "Cipher",
   .observe "k" ⟨"1", ⟨"Key", "generate", []⟩, "Key"⟩,
   .observe "c" ⟨"2", ⟨"Cipher", "init", ["Key"]⟩, "Cipher"⟩,
   .observe "c" ⟨"3", ⟨"Cipher", "reset", ["Key"]⟩, "Cipher"⟩,
   .pass, .supply ⟨"c", "2", "key", .argument 0⟩ [⟨.object "k@1", none⟩]]

/-- The query for the second key fails, and the predicate is missing. Had it been answered with
the generated key, nothing would be missing. -/
theorem missing_of_unresolved_key :
    let p : Predicate := .plain "generated" [keyTerm]
    let s := generatedStore ["k@2"]
    let v := resetView .unresolved
    let w := resetView ⟨.object "k@2", none⟩
    (v.Completed w ∧ Key.rowCount (p.atom.columns w) ≤ max Context.defaultCap 1 ∧
      (s.lookup Context.defaultCap p v).truth = .no ∧
      (s.lookup Context.defaultCap p w).truth = .yes) ∧
    start rekeyedSession.settings rekeyedSession.rules rekeyedSession.subtyping =
        .ok rekeyedSession ∧
      rekeyedSession.rules.rejected = [] ∧
      (rekeyedSession.run (rekeyedOps ++ [Op.resolveAll fun _ => none])).finish.records.map
        Violation.kind = [.missingPredicate] ∧
      (rekeyedSession.run (rekeyedOps ++
        [Op.resolveAll fun _ => some [⟨.object "k@2", none⟩]])).finish.records = [] := by
  intro p s v w
  exact ⟨⟨completed_resetView _ rfl, by decide, by decide, by decide⟩, rfl, by decide⟩

end Session

end Misuse
