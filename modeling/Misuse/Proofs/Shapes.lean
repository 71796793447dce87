import Misuse.Proofs.Declarations
import Misuse.Proofs.Repetition

/-!
# The shapes of predicates

A built-in predicate takes terms of a fixed shape, and no other predicate takes methods or types
(`Atom.WellShaped`). The check of a rule sees the predicates of constraints with all guards, and
those of effects without (`mem_predicates_iff`), so an accepted rule is well-shaped exactly if
the guards of its effects are (`wellShaped_iff`). Where predicates are well-shaped, no verdict
depends on what malformed built-in ones are said to be (`evaluateOr_of_wellShaped`).
-/

namespace Misuse

/-! ## Shapes -/

/-- The terms that a built-in predicate takes: methods, a variable with a type, or a variable. -/
inductive Builtin.Takes : Builtin → List Term → Prop
  | calls {b : Builtin} (hb : b = .callTo ∨ b = .noCallTo) {methods : List Signature}
      (some : methods ≠ []) : Takes b (methods.map .method)
  | typed {b : Builtin} (hb : b = .neverTypeOf ∨ b = .instanceOf) (v : Variable)
      (type : String) : Takes b [.var v, .type type]
  | valued {b : Builtin} (hb : b = .length ∨ b = .notHardCoded) (v : Variable) :
      Takes b [.var v]

/-- The predicate is built-in with the terms that it takes, or has no methods and types. -/
def Atom.WellShaped (a : Atom) : Prop :=
  match a.builtin? with
  | some b => b.Takes a.terms
  | none => ∀ t ∈ a.terms, t.method? = none ∧ t.type? = none

namespace Rule

theorem all_isMethod_iff (ts : List Term) :
    ts.all isMethod = true ↔ ∃ methods : List Signature, ts = methods.map .method := by
  induction ts with
  | nil => exact ⟨fun _ => ⟨[], rfl⟩, fun _ => rfl⟩
  | cons t ts ih =>
    rw [List.all_cons, Bool.and_eq_true, ih]
    constructor
    · rintro ⟨ht, methods, rfl⟩
      cases t with
      | method m => exact ⟨m :: methods, rfl⟩
      | _ => cases ht
    · rintro ⟨methods, h⟩
      cases methods with
      | nil => cases h
      | cons m methods =>
        cases h
        exact ⟨rfl, methods, rfl⟩

theorem fits_iff (b : Builtin) (ts : List Term) : fits b ts = true ↔ b.Takes ts := by
  have calls : !ts.isEmpty && ts.all isMethod ↔
      ∃ methods : List Signature, methods ≠ [] ∧ ts = methods.map .method := by
    rw [Bool.and_eq_true, all_isMethod_iff]
    constructor
    · rintro ⟨some, methods, rfl⟩
      exact ⟨methods, by simpa using some, rfl⟩
    · rintro ⟨methods, some, rfl⟩
      exact ⟨by simpa using some, methods, rfl⟩
  constructor
  · intro h
    unfold fits at h
    split at h
    · obtain ⟨methods, some, rfl⟩ := calls.mp h
      exact .calls (.inl rfl) some
    · obtain ⟨methods, some, rfl⟩ := calls.mp h
      exact .calls (.inr rfl) some
    · exact .typed (.inl rfl) _ _
    · exact .typed (.inr rfl) _ _
    · exact .valued (.inl rfl) _
    · exact .valued (.inr rfl) _
    · cases h
  · intro h
    cases h with
    | calls hb some =>
      rcases hb with rfl | rfl
      · exact calls.mpr ⟨_, some, rfl⟩
      · exact calls.mpr ⟨_, some, rfl⟩
    | typed hb v type => rcases hb with rfl | rfl <;> rfl
    | valued hb v => rcases hb with rfl | rfl <;> rfl

theorem any_isMethod_or_isType_eq_false_iff (ts : List Term) :
    (ts.any fun t => isMethod t || isType t) = false ↔
      ∀ t ∈ ts, t.method? = none ∧ t.type? = none := by
  simp only [List.any_eq_false, Bool.or_eq_true, not_or, isMethod, isType,
    Option.not_isSome_iff_eq_none]

theorem checkPredicate_eq_ok_iff (r : Rule) (p : Predicate) :
    r.checkPredicate p = .ok () ↔ p.atom.WellShaped := by
  unfold checkPredicate Atom.WellShaped
  cases p.atom.builtin? with
  | some b =>
    simp only [← fits_iff]
    cases fits b p.atom.terms <;> simp
  | none =>
    simp only [← any_isMethod_or_isType_eq_false_iff]
    cases p.atom.terms.any fun t => isMethod t || isType t <;> simp

/-! ## The predicates of a rule -/

/-- Every predicate of a rule, those of guards included. -/
def predicates (r : Rule) : List Predicate :=
  r.constraints.flatMap Constraint.predicates
    ++ r.effects.flatMap fun e => e.predicate.toConstraint.predicates

/-- The predicates in the guards of effects. -/
def guardPredicates (r : Rule) : List Predicate :=
  r.effects.flatMap fun e => e.predicate.guard.elim [] Constraint.predicates

variable {r : Rule}

theorem mem_toConstraint_predicates_iff (p q : Predicate) :
    q ∈ p.toConstraint.predicates ↔ q = p ∨ q ∈ p.guard.elim [] Constraint.predicates := by
  obtain ⟨a, guard⟩ := p
  cases guard with
  | none => simp [Predicate.toConstraint, Constraint.predicates]
  | some g => simp [Predicate.toConstraint, Constraint.predicates]

/-- **The check looks at every predicate but those in the guards of effects.** -/
theorem mem_predicates_iff (p : Predicate) :
    p ∈ r.predicates ↔ p ∈ r.checkedPredicates ∨ p ∈ r.guardPredicates := by
  simp only [predicates, checkedPredicates, guardPredicates, List.mem_append, List.mem_flatMap,
    List.mem_map, mem_toConstraint_predicates_iff, and_or_left, exists_or, or_assoc]
  simp only [eq_comm]

end Rule

/-! ## Malformed predicates -/

/-- A built-in predicate lacks a term that it is decided from. -/
def Atom.lacksTerm (a : Atom) : Builtin → Bool
  | .callTo | .noCallTo => false
  | .neverTypeOf | .instanceOf =>
    (a.terms.findSome? Term.var?).isNone || (a.terms.findSome? Term.type?).isNone
  | .length | .notHardCoded => (a.terms.findSome? Term.var?).isNone

theorem Builtin.Takes.lacksTerm {b : Builtin} {a : Atom} (h : b.Takes a.terms) :
    a.lacksTerm b = false := by
  generalize hts : a.terms = ts at h
  cases h with
  | calls hb _ => rcases hb with rfl | rfl <;> rfl
  | typed hb v type =>
    rcases hb with rfl | rfl <;> simp [Atom.lacksTerm, hts, Term.var?, Term.type?]
  | valued hb v => rcases hb with rfl | rfl <;> simp [Atom.lacksTerm, hts, Term.var?]

namespace Context

variable (malformed : Verdict) (ctx : Context)

/-- A predicate that lacks a term is unclear. -/
theorem builtin_of_lacksTerm {a : Atom} {b : Builtin} (h : a.lacksTerm b = true) :
    ctx.builtin a b = .plain .unclear := by
  have typed (h : ((a.terms.findSome? Term.var?).isNone ||
      (a.terms.findSome? Term.type?).isNone) = true) (check : String → String → Bool) :
      ctx.typed a check = .plain .unclear := by
    unfold Context.typed
    cases hv : a.terms.findSome? Term.var? with
    | none => rfl
    | some v =>
      cases ht : a.terms.findSome? Term.type? with
      | none => rfl
      | some type => simp [hv, ht] at h
  have valued (h : (a.terms.findSome? Term.var?).isNone = true) (check : Value → Option Bool) :
      ctx.valued a check = .plain .unclear := by
    unfold Context.valued
    rw [Option.isNone_iff_eq_none.mp h]
  cases b with
  | callTo => cases h
  | noCallTo => cases h
  | neverTypeOf => exact typed h _
  | instanceOf => exact typed h _
  | length => exact valued h _
  | notHardCoded => exact valued h _

/-- As `applies`, with a verdict of one's choice for built-in predicates that lack a term. -/
def appliesOr (p : Predicate) : Verdict :=
  match p.atom.builtin? with
  | some b =>
    let v := if p.atom.lacksTerm b then malformed else ctx.builtin p.atom b
    if p.atom.negated then { v with truth := v.truth.negate } else v
  | none => ctx.lookup p ctx.view

theorem appliesOr_unclear (p : Predicate) :
    ctx.appliesOr (.plain .unclear) p = ctx.applies p := by
  unfold appliesOr applies
  cases p.atom.builtin? with
  | none => rfl
  | some b =>
    cases hl : p.atom.lacksTerm b with
    | false => simp only [hl, Bool.false_eq_true, ↓reduceIte]
    | true => simp only [hl, ↓reduceIte, ctx.builtin_of_lacksTerm hl]

theorem appliesOr_of_wellShaped {p : Predicate} (h : p.atom.WellShaped) :
    ctx.appliesOr malformed p = ctx.applies p := by
  unfold Atom.WellShaped at h
  unfold appliesOr applies
  cases hb : p.atom.builtin? with
  | none => rfl
  | some b =>
    rw [hb] at h
    simp [Builtin.Takes.lacksTerm h]

end Context

namespace Constraint

variable (malformed : Verdict) (ctx : Context)

/-- As `evaluate`, with a verdict of one's choice for built-in predicates that lack a term. -/
def evaluateOr : Constraint → Verdict
  | .connect l op r =>
    let left := l.evaluateOr
    if op.needsRight left.truth then
      let right := r.evaluateOr
      .withSites (op.combine left.truth right.truth) (left.sites ++ right.sites)
    else .withSites (op.combine left.truth left.truth) left.sites
  | .atom a => ctx.appliesOr malformed ⟨a, none⟩
  | .guarded a g =>
    if g.evaluateOr.truth = .no then .holds else ctx.appliesOr malformed ⟨a, some g⟩
  | c => c.evaluate ctx

/-- The verdict that is given is that they are unclear. -/
theorem evaluateOr_unclear (c : Constraint) :
    c.evaluateOr (.plain .unclear) ctx = c.evaluate ctx := by
  induction c with
  | connect l op r ihl ihr => simp only [evaluateOr, evaluate, ihl, ihr]
  | atom a => exact ctx.appliesOr_unclear ⟨a, none⟩
  | guarded a g ih => simp only [evaluateOr, evaluate, ih, ctx.appliesOr_unclear]
  | _ => rfl

/-- **Where predicates are well-shaped, none of them is evaluated as malformed.** -/
theorem evaluateOr_of_wellShaped {c : Constraint} (h : ∀ p ∈ c.predicates, p.atom.WellShaped) :
    c.evaluateOr malformed ctx = c.evaluate ctx := by
  induction c with
  | connect l op r ihl ihr =>
    have left := ihl fun p hp => h p (List.mem_append_right _ hp)
    have right := ihr fun p hp => h p (List.mem_append_left _ hp)
    simp only [evaluateOr, evaluate, left, right]
  | atom a => exact ctx.appliesOr_of_wellShaped malformed (h _ (List.mem_singleton_self _))
  | guarded a g ih =>
    have guard := ih fun p hp => h p (List.mem_cons_of_mem _ hp)
    have applies := ctx.appliesOr_of_wellShaped malformed (h _ (List.mem_cons_self ..))
    simp only [evaluateOr, evaluate, guard, applies]
  | _ => rfl

end Constraint

/-! ## Accepted rules -/

namespace Rule

variable {r : Rule}

theorem Accepted.wellShaped (h : r.Accepted) {p : Predicate} (hp : p ∈ r.checkedPredicates) :
    p.atom.WellShaped := (r.checkPredicate_eq_ok_iff p).mp (h.predicates hp)

/-- **Accepted rules are well-shaped but for the guards of effects.** All predicates of an
accepted rule are well-shaped exactly if those guards are. Its constraints, and the predicates
of its requirements, are judged without a malformed predicate in any context; and so is a guard
of an effect if the predicates in it are well-shaped. -/
theorem wellShaped_iff {strict : Bool} (h : r.check strict = .ok ()) :
    ((∀ p ∈ r.predicates, p.atom.WellShaped) ↔ ∀ p ∈ r.guardPredicates, p.atom.WellShaped) ∧
      ∀ malformed ctx,
        (∀ c ∈ r.constraints, c.evaluateOr malformed ctx = c.evaluate ctx ∧
          ∀ q, Requirement.ofConstraint? c = some q → ∀ p ∈ q.members,
            p.toConstraint.evaluateOr malformed ctx = p.evaluate ctx) ∧
        ∀ e ∈ r.effects, ∀ g, e.predicate.guard = some g →
          (∀ p ∈ g.predicates, p.atom.WellShaped) →
            g.evaluateOr malformed ctx = g.evaluate ctx := by
  have accepted : r.Accepted := ⟨strict, h⟩
  have shaped : ∀ c ∈ r.constraints, ∀ p ∈ c.predicates, p.atom.WellShaped := by
    intro c hc p hp
    exact accepted.wellShaped (List.mem_append_left _ (List.mem_flatMap.mpr ⟨c, hc, hp⟩))
  refine ⟨?_, fun malformed ctx => ⟨fun c hc => ⟨?_, fun q hq p hp => ?_⟩, ?_⟩⟩
  · simp only [mem_predicates_iff, or_imp, forall_and]
    exact and_iff_right fun p hp => accepted.wellShaped hp
  · exact Constraint.evaluateOr_of_wellShaped malformed ctx (shaped c hc)
  · refine Constraint.evaluateOr_of_wellShaped malformed ctx fun p' hp' => ?_
    exact shaped c hc p' (Requirement.predicates_of_mem_members hq p hp p' hp')
  · exact fun _ _ g _ hg => Constraint.evaluateOr_of_wellShaped malformed ctx hg

/-! ## A malformed guard -/

/-- A cipher is prepared if its guard is true. -/
def preparedIf (guard : Constraint) : Rule :=
  keyCipher [initKey] [] [⟨⟨⟨"prepared", [.self], false⟩, some guard⟩, none⟩]

/-- The key has the types. -/
def keyHas (types : List String) : Constraint :=
  .atom ⟨"instanceOf", .var (.whole "key" "Key") :: types.map .type, false⟩

theorem wellShaped_iff_key :
    (preparedIf (keyHas ["Key"])).check true = .ok () ∧
      (preparedIf (keyHas ["Key"])).predicates.map Predicate.display =
        ["prepared[this]", "instanceOf[key, Key]"] ∧
      ∀ p ∈ (preparedIf (keyHas ["Key"])).predicates, p.atom.WellShaped := by
  have accepted : (preparedIf (keyHas ["Key"])).check true = .ok () := by decide
  have guards : ∀ p ∈ (preparedIf (keyHas ["Key"])).guardPredicates, p.atom.WellShaped := by
    intro p hp
    rw [List.mem_singleton.mp hp]
    exact .typed (.inr rfl) (.whole "key" "Key") "Key"
  exact ⟨accepted, by decide, (wellShaped_iff accepted).1.mpr guards⟩

end Rule

namespace Session

/-- A session with one cipher, whose key is known. -/
def preparingSession (guard : Constraint) : Session :=
  { guardedSession with rules := Rulebook.empty.insert false (Rule.preparedIf guard) }

def preparingOps : List Op :=
  [.track "c" "c@1" "Cipher", .observe "c" ⟨"1", ⟨"Cipher", "init", ["Key"]⟩, "Cipher"⟩,
   .supply ⟨"c", "1", "key", .argument 0⟩ [⟨.object "k@1", some "Key"⟩]]

/-- A guard that lacks a type is accepted. It is unclear whatever is known, so that the effect
is held back with no query unanswered; with the type it is published. -/
theorem malformed_of_accepted :
    let s := preparingSession (Rule.keyHas [])
    let shaped := preparingSession (Rule.keyHas ["Key"])
    (Rule.preparedIf (Rule.keyHas [])).check true = .ok () ∧
      (∃ p ∈ (Rule.preparedIf (Rule.keyHas [])).predicates, ¬ p.atom.WellShaped) ∧
      (∀ malformed ctx, (Rule.keyHas []).evaluateOr malformed ctx = malformed) ∧
      start s.settings s.rules s.subtyping = .ok s ∧ s.rules.rejected = [] ∧
      (s.run preparingOps).pass.2.deferred = 1 ∧ (s.run preparingOps).pass.1.registry.pending = [] ∧
      (shaped.run preparingOps).pass.2.factsPublished = 1 := by
  intro s shaped
  have malformed : ¬ Atom.WellShaped ⟨"instanceOf", [.var (.whole "key" "Key")], false⟩ := by
    intro h
    have fits := (Rule.fits_iff .instanceOf [.var (.whole "key" "Key")]).mpr h
    cases fits
  refine ⟨by decide, ⟨_, List.mem_cons_of_mem _ (List.mem_singleton_self _), malformed⟩,
    fun _ _ => rfl, rfl, by decide, by decide, by decide, by decide⟩

end Session

end Misuse
