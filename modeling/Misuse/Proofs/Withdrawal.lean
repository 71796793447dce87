import Misuse.Proofs.Reach

/-!
# What a retraction removes

A negated effect publishes the rows of its keys as retractions. A visible list is covered by one of
them exactly if each of its keys is withdrawn by the term at its position
(`exists_cover_rows_iff`, `exists_covers_iff`). So the lists that the terms withdraw are removed and
no others. Nothing is removed where some variable has no value with a key or the combinations exceed
the cap: a retraction is never widened (`visible_retractAll_effect`).
-/

namespace Misuse

/-! ## Withdrawn keys -/

/-- The rows of a product cover a list together just as the columns do, one by one. -/
theorem Key.exists_cover_rows_iff (columns : List (List Key)) (args : Args) :
    (∃ row ∈ rows columns, Args.cover row args = true) ↔
      List.Forall₂ (fun column k => ∃ l ∈ column, covers l k = true) columns args := by
  have products := exists_pointwise_rows_iff covers columns (args.map fun k => [k])
  simp only [rows_map_singleton, List.forall₂_map_right_iff, List.mem_singleton,
    exists_eq_left] at products
  exact products

namespace Term

/-- The keys that a term withdraws: that of the object itself, those of the values of its variable,
or every key if it stands for every value. -/
def Withdraws (view : View) (t : Term) (k : Key) : Prop :=
  match t with
  | .self => k = .object view.self
  | .var v => ∃ x ∈ view.valuesOf v.name, Key.ofValue? v x.2 = some k
  | .wildcard | .method _ | .type _ => True

instance (view : View) : DecidableRel (Withdraws view) := fun t k =>
  match t with
  | .self => inferInstanceAs (Decidable (k = _))
  | .var _ => inferInstanceAs (Decidable (∃ x ∈ view.valuesOf _, _))
  | .wildcard | .method _ | .type _ => inferInstanceAs (Decidable True)

variable {view : View} {t : Term} {k : Key}

/-- What the keys of a term cover is what it withdraws. -/
theorem exists_covers_iff : (∃ l ∈ t.keys view, Key.covers l k = true) ↔ t.Withdraws view k := by
  cases t with
  | self =>
    simp only [keys, List.mem_singleton, exists_eq_left, Withdraws]
    rw [Key.covers_eq_true_iff (by simp), eq_comm]
  | var v =>
    constructor
    · rintro ⟨l, hl, covered⟩
      obtain ⟨x, hx, key⟩ := (mem_keys_var_iff view v l).mp hl
      -- the key of a value is never every value, so it covers itself only
      have narrow : l ≠ .any := by
        rintro rfl
        exact Key.ofValue?_ne_any v x.2 key
      obtain rfl := (Key.covers_eq_true_iff narrow).mp covered
      exact ⟨x, hx, key⟩
    · rintro ⟨x, hx, key⟩
      exact ⟨k, (mem_keys_var_iff view v k).mpr ⟨x, hx, key⟩, Key.covers_self k⟩
  | _ => simp [keys, Withdraws, Key.covers]

/-- Every value is withdrawn only by a term that stands for every value. -/
theorem Withdraws.isWild_of_any (h : t.Withdraws view .any) : t.isWild = true := by
  cases t with
  | self => cases h
  | var v =>
    obtain ⟨x, -, key⟩ := h
    exact absurd key (Key.ofValue?_ne_any v x.2)
  | _ => rfl

end Term

namespace Atom

/-- A list is withdrawn if it has as many keys as the atom has terms, and each key is withdrawn by
the term at its position. -/
def Withdraws (view : View) (a : Atom) (args : Args) : Prop :=
  List.Forall₂ (Term.Withdraws view) a.terms args

instance (view : View) (a : Atom) : DecidablePred (a.Withdraws view) := fun args =>
  inferInstanceAs (Decidable (List.Forall₂ (Term.Withdraws view) a.terms args))

/-- Some variable among the terms has no value with a key, or the combinations of the keys exceed
the cap. -/
def HeldBack (view : View) (cap : Nat) (a : Atom) : Prop :=
  (∃ v, .var v ∈ a.terms ∧ ∀ x ∈ view.valuesOf v.name, Key.ofValue? v x.2 = none) ∨
    max cap 1 < Key.rowCount (a.columns view)

variable {view : View} {cap : Nat} {a : Atom}

/-- A withdrawn list has every value only at the place of a term that stands for every value. -/
theorem Withdraws.exists_isWild_of_any {args : Args} (h : a.Withdraws view args) {i : Nat}
    (hi : args[i]? = some Key.any) : ∃ u : Term, a.terms[i]? = some u ∧ u.isWild = true := by
  obtain ⟨within, key⟩ := List.getElem?_eq_some_iff.mp hi
  have within' : i < a.terms.length := h.length_eq ▸ within
  have here : a.terms[i].Withdraws view .any := key ▸ h.get within' within
  exact ⟨a.terms[i], List.getElem?_eq_getElem within', here.isWild_of_any⟩

theorem exists_cover_rows_iff (args : Args) :
    (∃ row ∈ Key.rows (a.columns view), Args.cover row args = true) ↔ a.Withdraws view args := by
  rw [Key.exists_cover_rows_iff, columns, List.forall₂_map_left_iff]
  simp only [Term.exists_covers_iff]
  rfl

/-- Only a variable can be without a key. -/
theorem determined_iff_not_heldBack : a.Determined view cap ↔ ¬ a.HeldBack view cap := by
  have keyed : (∀ t ∈ a.terms, t.keys view ≠ []) ↔
      ¬ ∃ v, .var v ∈ a.terms ∧ ∀ x ∈ view.valuesOf v.name, Key.ofValue? v x.2 = none := by
    simp only [← Term.keys_var_eq_nil_iff, not_exists, not_and]
    constructor
    · exact fun h v hv => h _ hv
    · intro h t ht
      cases t with
      | var v => exact h v ht
      | _ => exact List.cons_ne_nil _ _
  rw [Determined, keyed, HeldBack, not_or, Nat.not_lt]

end Atom

/-! ## Removed lists -/

section

variable {r : Rule} {t : Trigger} {e : Effect} (he : r.effects[t.effect]? = some e)
  (hneg : e.isRetraction = true) (view : View) (cap : Nat)
include he hneg

/-- The facts of a negated effect are the rows of its keys, unless it is held back. -/
theorem Rule.exists_mem_withdrawn_iff (name : String) (p : Args → Prop) :
    (∃ f ∈ r.factsOf view cap t, f.name = name ∧ p f.args) ↔
      e.predicate.atom.name = name ∧ ¬ e.predicate.atom.HeldBack view cap ∧
        ∃ row ∈ Key.rows (e.predicate.atom.columns view), p row := by
  have negated : e.predicate.atom.negated = true := hneg
  rw [← Atom.determined_iff_not_heldBack]
  simp only [factsOf, he, Atom.published, negated, if_true, Atom.exactColumns?_eq, List.mem_map]
  by_cases determined : e.predicate.atom.Determined view cap
  · simp only [determined, if_true, true_and]
    constructor
    · rintro ⟨_, ⟨row, hrow, rfl⟩, hname, hp⟩
      exact ⟨hname, row, hrow, hp⟩
    · rintro ⟨hname, row, hrow, hp⟩
      exact ⟨_, ⟨row, hrow, rfl⟩, hname, hp⟩
  · simp [determined]

theorem FactStore.Agrees.mem_visible_withdraw_iff {s : FactStore} (h : s.Agrees) (name : String)
    (args : Args) :
    args ∈ (s.retractAll (r.factsOf view cap t)).visible name ↔
      args ∈ s.visible name ∧ ¬ (e.predicate.atom.name = name ∧
        ¬ e.predicate.atom.HeldBack view cap ∧ e.predicate.atom.Withdraws view args) := by
  rw [h.mem_visible_retractAll, ← e.predicate.atom.exists_cover_rows_iff,
    ← Rule.exists_mem_withdrawn_iff he hneg view cap name fun row => Args.cover row args = true]
  simp only [not_exists, not_and, Bool.not_eq_true]

/-- **A retraction removes exactly what it names.** Take any history, a negated effect of a rule, a
view and a cap. If some variable of the effect has no value with a key, or the combinations of the
keys exceed the cap, nothing is removed. Otherwise the visible lists of its name that are removed
are those it withdraws: they have one key for each of its terms, and the key is the object's own, or
that of a value of the variable, or any at all where the term stands for every value. So a key that
stands for every value goes only where such a term stands, and other names are left alone. -/
theorem FactStore.visible_retractAll_effect (ops : List FactStore.Op) :
    let before := FactStore.after ops
    let later := before.retractAll (r.factsOf view cap t)
    let a := e.predicate.atom
    (a.HeldBack view cap → later.visible a.name = before.visible a.name) ∧
      (¬ a.HeldBack view cap → later.visible a.name =
        (before.visible a.name).filter fun args => !decide (a.Withdraws view args)) ∧
      (∀ args : Args, args ∈ before.visible a.name → args ∉ later.visible a.name →
        args.length = a.terms.length ∧
          ∀ i : Nat, args[i]? = some Key.any →
            ∃ u : Term, a.terms[i]? = some u ∧ u.isWild = true) ∧
      ∀ name : String, name ≠ a.name → later.visible name = before.visible name := by
  intro before later a
  have removed := (FactStore.agrees_after ops).mem_visible_withdraw_iff he hneg view cap
  have increasing := FactStore.increasing_visible
  refine ⟨fun held => ?_, fun free => ?_, fun args hargs gone => ?_, fun name other => ?_⟩
  · apply Sorted.eq_of_mem_iff (increasing later a.name) (increasing before a.name)
    simp [later, removed, held, a, before]
  · apply Sorted.eq_of_mem_iff (increasing later a.name) ((increasing before a.name).filter _)
    simp [later, removed, free, a, before]
  · have withdrawn : a.Withdraws view args := by
      by_contra kept
      exact gone ((removed a.name args).mpr ⟨hargs, fun h => kept h.2.2⟩)
    exact ⟨withdrawn.length_eq.symm, fun i hi => withdrawn.exists_isWild_of_any hi⟩
  · apply Sorted.eq_of_mem_iff (increasing later name) (increasing before name)
    intro args
    rw [removed name args]
    exact and_iff_left fun h => other h.1.symm

end

/-- A rule whose effect withdraws a key from every algorithm. -/
def revokingRule : Rule :=
  { generatorRule with effects := [⟨.negate (.plain "generated" [keyTerm, .wildcard]), none⟩] }

/-- What was generated before: for one key with an algorithm, with any and with none, for another
key, and for any key. -/
def generatedBefore : List FactStore.Op :=
  let origin : Origin := ⟨"Generator", "g", "ready", "1"⟩
  [.publish ⟨"generated", [.object "k@1", .constant "aes"], false, origin⟩,
   .publish ⟨"generated", [.object "k@1", .any], false, origin⟩,
   .publish ⟨"generated", [.object "k@1"], false, origin⟩,
   .publish ⟨"generated", [.object "k@2", .constant "aes"], false, origin⟩,
   .publish ⟨"generated", [.any, .constant "aes"], false, origin⟩,
   .publish ⟨"made", [.object "k@1", .constant "aes"], false, origin⟩]

/-- Only the lists of the same key with one more argument go, whatever it is. Any key stays, and
nothing goes if the key is not known. -/
theorem FactStore.visible_retractAll_effect_key :
    let view := generatorView [⟨.object "k@1", none⟩]
    let unknown := generatorView [.unresolved]
    let before := FactStore.after generatedBefore
    let withdrawn := revokingRule.factsOf view Context.defaultCap generation
    let nothing := revokingRule.factsOf unknown Context.defaultCap generation
    (before.visible "generated").length = 5 ∧
      (before.retractAll withdrawn).visible "generated" =
        [[.object "k@1"], [.object "k@2", .constant "aes"], [.any, .constant "aes"]] ∧
      (before.retractAll withdrawn).visible "made" = [[.object "k@1", .constant "aes"]] ∧
      (before.retractAll nothing).visible "generated" = before.visible "generated" := by
  intro view unknown before withdrawn nothing
  let effect : Effect := ⟨.negate (.plain "generated" [keyTerm, .wildcard]), none⟩
  have due : revokingRule.effects[generation.effect]? = some effect := rfl
  have negated : effect.isRetraction = true := rfl
  have free : ¬ effect.predicate.atom.HeldBack view Context.defaultCap := by
    rw [← Atom.determined_iff_not_heldBack]
    decide
  have held : effect.predicate.atom.HeldBack unknown Context.defaultCap :=
    .inl ⟨.whole "key" "Key", .head _, by decide⟩
  obtain ⟨-, kept, -, others⟩ := visible_retractAll_effect due negated view Context.defaultCap
    generatedBefore
  obtain ⟨still, -⟩ := visible_retractAll_effect due negated unknown Context.defaultCap
    generatedBefore
  refine ⟨by decide +kernel, (kept free).trans (by decide +kernel), ?_, still held⟩
  exact (others "made" (by decide)).trans (by decide +kernel)

end Misuse
