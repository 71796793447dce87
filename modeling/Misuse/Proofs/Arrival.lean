import Mathlib.Data.List.Perm.Basic
import Misuse.Judgement
import Misuse.Keying
import Misuse.Proofs.Keys

/-!
# The order in which bindings arrive

Two views with the same bindings in another order (`View.Shuffled`) give every constraint the
same truth from the same sites, which may be listed in another order (`evaluate_shuffled`),
and every effect the same facts (`factsOf_shuffled`).
-/

namespace Misuse

/-- The same view with the bindings in another order. -/
structure View.Shuffled (v w : View) : Prop where
  object : v.object = w.object
  self : v.self = w.self
  calls : v.calls = w.calls
  bindings : v.bindings.Perm w.bindings

theorem View.Shuffled.valuesOf {v w : View} (h : v.Shuffled w) (x : String) :
    (v.valuesOf x).Perm (w.valuesOf x) :=
  (h.bindings.filter _).flatMap_right _

/-! ## Verdicts -/

/-- The same truth, with its sites in another order. -/
structure Verdict.Shuffled (v w : Verdict) : Prop where
  truth : v.truth = w.truth
  sites : v.sites.Perm w.sites

theorem Verdict.shuffled_of_eq {v w : Verdict} (h : v = w) : v.Shuffled w := by
  subst h
  exact ⟨rfl, .refl _⟩

theorem distinct_perm {α : Type} [DecidableEq α] {s t : List α} (h : s.Perm t) :
    (distinct s).Perm (distinct t) := by
  refine (List.perm_ext_iff_of_nodup (nodup_distinct s) (nodup_distinct t)).mpr fun a => ?_
  rw [mem_distinct, mem_distinct, h.mem_iff]

theorem Verdict.withSites_shuffled (truth : Truth) {s t : List String} (h : s.Perm t) :
    (withSites truth s).Shuffled (withSites truth t) := ⟨rfl, distinct_perm h⟩

theorem Verdict.ofJudged_shuffled {items others : List (Truth × List String)}
    (h : items.Perm others) : (ofJudged items).Shuffled (ofJudged others) := by
  have sites (t : Truth) : ((items.filter fun i => i.1 == t).flatMap Prod.snd).Perm
      ((others.filter fun i => i.1 == t).flatMap Prod.snd) := (h.filter _).flatMap_right _
  unfold ofJudged ofSites
  rw [(sites .no).isEmpty_eq, (sites .unclear).isEmpty_eq]
  split
  · exact withSites_shuffled .no (sites .no)
  · split
    · exact withSites_shuffled .unclear (sites .unclear)
    · exact shuffled_of_eq rfl

section Candidates

variable {v w : View} (h : v.Shuffled w)
include h

theorem Operand.candidates_shuffled (e : Operand) : (e.candidates v).Perm (e.candidates w) := by
  cases e with
  | literal c => exact List.Perm.refl _
  | var x => exact (h.valuesOf x.name).map _
  | length x => exact (h.valuesOf x.name).map _

/-- The same combinations are looked at, in another order, or there are too many of them. -/
theorem Arithmetic.candidates?_shuffled (limit : Nat) (e : Arithmetic) :
    (e.candidates? v limit = none ∧ e.candidates? w limit = none) ∨
      ∃ cs ds, e.candidates? v limit = some cs ∧ e.candidates? w limit = some ds ∧
        cs.Perm ds := by
  have left := e.left.candidates_shuffled h
  have right := e.right.candidates_shuffled h
  unfold candidates?
  split
  · exact .inr ⟨_, _, rfl, rfl, left⟩
  · simp only [left.length_eq, right.length_eq]
    split
    · exact .inl ⟨rfl, rfl⟩
    · refine .inr ⟨_, _, rfl, rfl, ?_⟩
      exact left.flatMap fun l _ => right.map _

end Candidates

/-- Two contexts that differ in the order of the bindings, and look up the same. -/
structure Context.Shuffled (ctx other : Context) : Prop where
  view : ctx.view.Shuffled other.view
  lookup : ∀ p, (ctx.lookup p ctx.view).Shuffled (other.lookup p other.view)
  subtyping : ctx.subtyping = other.subtyping
  cap : ctx.cap = other.cap

section Verdicts

variable {ctx other : Context} (h : ctx.Shuffled other)
include h

namespace Context

theorem perValue_shuffled (x : Variable) (check : Value → Option Bool) :
    (ctx.perValue x check).Shuffled (other.perValue x check) :=
  Verdict.ofJudged_shuffled ((h.view.valuesOf x.name).map _)

theorem valued_shuffled (a : Atom) (check : Value → Option Bool) :
    (ctx.valued a check).Shuffled (other.valued a check) := by
  unfold valued
  cases a.terms.findSome? Term.var? with
  | none => exact Verdict.shuffled_of_eq rfl
  | some x => exact perValue_shuffled h x check

theorem typed_shuffled (a : Atom) (check : String → String → Bool) :
    (ctx.typed a check).Shuffled (other.typed a check) := by
  unfold typed
  cases a.terms.findSome? Term.var? with
  | none => exact Verdict.shuffled_of_eq rfl
  | some x =>
    cases a.terms.findSome? Term.type? with
    | none => exact Verdict.shuffled_of_eq rfl
    | some type => exact perValue_shuffled h x _

theorem builtin_shuffled (a : Atom) (b : Builtin) :
    (ctx.builtin a b).Shuffled (other.builtin a b) := by
  have calls : ctx.matchingCalls a = other.matchingCalls a := by
    simp only [matchingCalls, h.view.calls, h.subtyping]
  cases b with
  | callTo => exact Verdict.shuffled_of_eq (by simp only [builtin, calls])
  | noCallTo => exact Verdict.shuffled_of_eq (by simp only [builtin, calls])
  | neverTypeOf =>
    simp only [builtin, h.subtyping]
    exact typed_shuffled h a _
  | instanceOf =>
    simp only [builtin, h.subtyping]
    exact typed_shuffled h a _
  | length => exact valued_shuffled h a _
  | notHardCoded => exact valued_shuffled h a _

theorem applies_shuffled (p : Predicate) : (ctx.applies p).Shuffled (other.applies p) := by
  unfold applies
  cases p.atom.builtin? with
  | some b =>
    have verdict := builtin_shuffled h p.atom b
    cases p.atom.negated with
    | true => exact ⟨congrArg Truth.negate verdict.truth, verdict.sites⟩
    | false => exact verdict
  | none => exact h.lookup p

theorem arithmetic_shuffled (e : Arithmetic) :
    (ctx.arithmetic e).Shuffled (other.arithmetic e) := by
  have limit : ctx.limit = other.limit := congrArg (max · 1) h.cap
  unfold arithmetic
  rw [limit]
  rcases e.candidates?_shuffled h.view other.limit with ⟨hv, hw⟩ | ⟨cs, ds, hv, hw, perm⟩
  · exact Verdict.shuffled_of_eq (by rw [hv, hw])
  · rw [hv, hw]
    exact Verdict.ofJudged_shuffled (perm.map _)

theorem comparison_shuffled (l : Arithmetic) (op : Comparison) (r : Arithmetic) :
    (ctx.comparison l op r).Shuffled (other.comparison l op r) := by
  have limit : ctx.limit = other.limit := congrArg (max · 1) h.cap
  unfold comparison
  rw [limit]
  rcases l.candidates?_shuffled h.view other.limit with ⟨hv, hw⟩ | ⟨cs, ds, hv, hw, left⟩
  · exact Verdict.shuffled_of_eq (by rw [hv, hw])
  · rw [hv, hw]
    rcases r.candidates?_shuffled h.view other.limit with ⟨hv, hw⟩ | ⟨cs', ds', hv, hw, right⟩
    · exact Verdict.shuffled_of_eq (by rw [hv, hw])
    · rw [hv, hw]
      simp only [left.length_eq, right.length_eq]
      split
      · exact Verdict.shuffled_of_eq rfl
      · exact Verdict.ofJudged_shuffled (left.flatMap fun l _ => right.map _)

end Context

/-- **The order of arrival has no bearing on a verdict but for the order of its sites.** -/
theorem Constraint.evaluate_shuffled (c : Constraint) :
    (c.evaluate ctx).Shuffled (c.evaluate other) := by
  induction c with
  | member v allowed =>
    exact Context.perValue_shuffled h v fun x =>
      (v.textOf? x).map fun s => allowed.any fun a => Text.sameLetters a s
  | arithmetic e => exact Context.arithmetic_shuffled h e
  | compare l op r => exact Context.comparison_shuffled h l op r
  | connect l op r ihl ihr =>
    simp only [evaluate, ihl.truth, ihr.truth]
    split
    · exact Verdict.withSites_shuffled _ (ihl.sites.append ihr.sites)
    · exact Verdict.withSites_shuffled _ ihl.sites
  | atom a => exact Context.applies_shuffled h ⟨a, none⟩
  | guarded a g ih =>
    simp only [evaluate, ih.truth]
    split
    · exact Verdict.shuffled_of_eq rfl
    · exact Context.applies_shuffled h ⟨a, some g⟩
  | throws m exception => exact Verdict.shuffled_of_eq rfl

theorem Constraint.truth_evaluate_shuffled (c : Constraint) :
    (c.evaluate ctx).truth = (c.evaluate other).truth := (c.evaluate_shuffled h).truth

end Verdicts

/-! ## Facts -/

section Facts

variable {v w : View} (h : v.Shuffled w)
include h

theorem Term.keys_shuffled (t : Term) : t.keys v = t.keys w := by
  cases t with
  | self => simp only [keys, h.self]
  | var x =>
    have members := (h.valuesOf x.name).filterMap fun e => Key.ofValue? x e.2
    exact Sorted.ofList_congr fun k => members.mem_iff
  | _ => rfl

theorem Atom.columns_shuffled (a : Atom) : a.columns v = a.columns w :=
  List.map_congr_left fun t _ => t.keys_shuffled h

theorem FactStore.lookup_shuffled (s : FactStore) (cap : Nat) (p : Predicate) :
    s.lookup cap p v = s.lookup cap p w := by
  simp only [lookup, Atom.exactColumns?, Atom.columns_shuffled h]

/-- **The order of arrival has no bearing on the facts of an effect.** -/
theorem Rule.factsOf_shuffled (r : Rule) (cap : Nat) (t : Trigger) :
    r.factsOf v cap t = r.factsOf w cap t := by
  unfold factsOf
  cases r.effects[t.effect]? with
  | none => rfl
  | some e =>
    simp only [Atom.published, Atom.exactColumns?, Atom.widenedColumns, Atom.columns_shuffled h,
      h.object]

end Facts

end Misuse
