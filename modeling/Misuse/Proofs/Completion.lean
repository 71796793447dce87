import Mathlib.Data.List.Forall2
import Misuse.Keying

/-!
# Learning more of a value

A view is completed where contents it did not know become known (`View.Completed`). A truth is
kept if it was unclear or stays what it was (`Truth.KeptBy`). Every check of a value is
undetermined for an unknown content, and everything above the checks keeps truths: the verdict
over many items (`truth_ofJudged_kept`), the connectives (`KeptBy.combine`) and so every
constraint without guards (`truth_evaluate_completed`).
-/

namespace Misuse

/-! ## Completed views -/

/-- Something may be learnt of an unknown content. -/
structure Value.Completed (x y : Value) : Prop where
  content : x.content = .unknown ∨ y.content = x.content
  staticType : y.staticType = x.staticType

structure Binding.Completed (b c : Binding) : Prop where
  site : c.site = b.site
  var : c.var = b.var
  slot : c.slot = b.slot
  values : List.Forall₂ Value.Completed b.values c.values

/-- The same view, but for contents that were unknown. -/
structure View.Completed (v w : View) : Prop where
  object : w.object = v.object
  self : w.self = v.self
  calls : w.calls = v.calls
  bindings : List.Forall₂ Binding.Completed v.bindings w.bindings

/-- The same sites bind a variable. -/
theorem View.Completed.valuesOf {v w : View} (h : v.Completed w) (x : String) :
    List.Forall₂ (fun a b => b.1 = a.1 ∧ a.2.Completed b.2) (v.valuesOf x) (w.valuesOf x) := by
  have named : List.Forall₂ Binding.Completed (v.bindings.filter fun b => b.var == x)
      (w.bindings.filter fun b => b.var == x) :=
    List.rel_filter (fun b c hbc => by simp only [hbc.var]) h.bindings
  refine List.rel_flatMap named fun b c hbc => ?_
  rw [List.forall₂_map_left_iff, List.forall₂_map_right_iff]
  exact hbc.values.imp fun _ _ hx => ⟨hbc.site, hx⟩

/-! ## Learning and keeping -/

/-- What was missing may be known. -/
def Learnt {α : Type} (o p : Option α) : Prop := o = none ∨ p = o

namespace Learnt

variable {α β : Type} {o p : Option α}

theorem refl (o : Option α) : Learnt o o := .inr rfl

theorem bind (h : Learnt o p) {f g : α → Option β} (k : ∀ x, Learnt (f x) (g x)) :
    Learnt (o.bind f) (p.bind g) := by
  rcases h with rfl | rfl
  · exact .inl rfl
  · cases p with
    | none => exact .inl rfl
    | some x => exact k x

theorem map (h : Learnt o p) (f : α → β) : Learnt (o.map f) (p.map f) := by
  rcases h with rfl | rfl
  · exact .inl rfl
  · exact .refl _

end Learnt

/-- A truth that is not unclear stays. -/
def Truth.KeptBy (t u : Truth) : Prop := t = .unclear ∨ u = t

instance (t u : Truth) : Decidable (t.KeptBy u) := inferInstanceAs (Decidable (_ ∨ _))

namespace Truth.KeptBy

variable {t u t' u' : Truth}

theorem refl (t : Truth) : t.KeptBy t := .inr rfl

theorem ofOption {o p : Option Bool} (h : Learnt o p) :
    (Truth.ofOption o).KeptBy (Truth.ofOption p) := by
  rcases h with rfl | rfl
  · exact .inl rfl
  · exact .refl _

theorem negate (h : t.KeptBy u) : t.negate.KeptBy u.negate := by
  rcases h with rfl | rfl
  · exact .inl rfl
  · exact .refl _

/-- A connective that was definite is so for the operands that were. -/
theorem combine (h : t.KeptBy u) (h' : t'.KeptBy u') (op : Connective) :
    (op.combine t t').KeptBy (op.combine u u') := by
  revert h h'
  cases op <;> cases t <;> cases t' <;> cases u <;> cases u' <;> decide

end Truth.KeptBy

/-! ## Verdicts -/

/-- Items without sites do not count. -/
theorem Verdict.truth_ofJudged_cons (i : Truth × List String)
    (items : List (Truth × List String)) :
    (ofJudged (i :: items)).truth =
      if i.2.isEmpty then (ofJudged items).truth else i.1.and (ofJudged items).truth := by
  obtain ⟨t, sites⟩ := i
  unfold ofJudged ofSites
  cases sites with
  -- without a site the item adds to neither list of sites
  | nil => cases t <;> rfl
  | cons site sites =>
    generalize hno : (items.filter fun i => i.1 == .no).flatMap Prod.snd = no
    generalize hun : (items.filter fun i => i.1 == .unclear).flatMap Prod.snd = un
    cases t <;> cases no <;> cases un <;> simp [hno, hun, withSites, holds, plain, Truth.and]

theorem Verdict.truth_ofJudged_kept {items others : List (Truth × List String)}
    (h : List.Forall₂ (fun i j => j.2 = i.2 ∧ i.1.KeptBy j.1) items others) :
    (ofJudged items).truth.KeptBy (ofJudged others).truth := by
  induction h with
  | nil => exact .refl _
  | cons hij _ ih =>
    -- the sites are the same, so both items count or neither does
    rw [truth_ofJudged_cons, truth_ofJudged_cons, hij.1]
    split
    · exact ih
    · exact hij.2.combine ih .and

/-! ## Checks of values -/

section Values

variable {x y : Value} (h : x.Completed y)
include h

theorem Value.Completed.constant? : Learnt x.constant? y.constant? := by
  rcases h.content with unknown | same
  · exact .inl (by simp [Value.constant?, unknown])
  · exact .inr (by simp [Value.constant?, same])

theorem Variable.textOf?_completed (v : Variable) : Learnt (v.textOf? x) (v.textOf? y) :=
  (h.constant?.bind fun _ => .refl _).bind fun _ => .refl _

theorem Variable.scalarOf?_completed (v : Variable) : Learnt (v.scalarOf? x) (v.scalarOf? y) := by
  unfold scalarOf?
  cases v.cut with
  | some cut => exact (v.textOf?_completed h).map _
  | none => exact h.constant?.bind fun _ => .refl _

theorem Variable.lengthOf?_completed (v : Variable) : Learnt (v.lengthOf? x) (v.lengthOf? y) := by
  unfold lengthOf?
  cases v.cut with
  | some cut => exact (v.textOf?_completed h).map _
  | none => exact h.constant?.bind fun _ => .refl _

end Values

/-! ## Candidates -/

/-- The value of a combination may become known. -/
structure Candidate.Completed (c d : Candidate) : Prop where
  value : Learnt c.value d.value
  sites : d.sites = c.sites

theorem Arithmetic.combine_completed (op : Arithmetic.Op) {l r l' r' : Candidate}
    (hl : l.Completed l') (hr : r.Completed r') : (combine op l r).Completed (combine op l' r') where
  value := (hl.value.bind fun _ => .refl _).bind fun _ =>
    (hr.value.bind fun _ => .refl _).bind fun _ => .refl _
  sites := by simp only [combine, hl.sites, hr.sites]

theorem Comparison.judgeOption_completed (op : Comparison) {a b c d : Option Scalar}
    (h : Learnt a b) (h' : Learnt c d) : (op.judgeOption a c).KeptBy (op.judgeOption b d) := by
  rcases h with rfl | rfl
  · exact .inl rfl
  · rcases h' with rfl | rfl
    · cases b <;> exact .inl rfl
    · exact .refl _

section Candidates

variable {v w : View} (h : v.Completed w)
include h

theorem Operand.candidates_completed (e : Operand) :
    List.Forall₂ Candidate.Completed (e.candidates v) (e.candidates w) := by
  cases e with
  | literal c => exact .cons ⟨.refl _, rfl⟩ .nil
  | var x =>
    refine List.rel_map (fun a b hab => ?_) (h.valuesOf x.name)
    exact ⟨x.scalarOf?_completed hab.2, congrArg (fun s => [s]) hab.1⟩
  | length x =>
    refine List.rel_map (fun a b hab => ?_) (h.valuesOf x.name)
    exact ⟨((x.lengthOf?_completed hab.2).bind fun _ => .refl _).map _,
      congrArg (fun s => [s]) hab.1⟩

/-- As many combinations are looked at, or there are too many of them. -/
theorem Arithmetic.candidates?_completed (limit : Nat) (e : Arithmetic) :
    (e.candidates? v limit = none ∧ e.candidates? w limit = none) ∨
      ∃ cs ds, e.candidates? v limit = some cs ∧ e.candidates? w limit = some ds ∧
        List.Forall₂ Candidate.Completed cs ds := by
  have left := e.left.candidates_completed h
  have right := e.right.candidates_completed h
  unfold candidates?
  split
  · exact .inr ⟨_, _, rfl, rfl, left⟩
  · simp only [left.length_eq, right.length_eq]
    split
    · exact .inl ⟨rfl, rfl⟩
    · refine .inr ⟨_, _, rfl, rfl, List.rel_flatMap left fun l l' hl => ?_⟩
      exact List.rel_map (fun r r' hr => combine_completed e.op hl hr) right

end Candidates

/-! ## Constraints -/

/-- An operand that is not looked at has no bearing on the truth. -/
theorem Constraint.truth_evaluate_connect (ctx : Context) (l : Constraint) (op : Connective)
    (r : Constraint) :
    (Constraint.evaluate ctx (.connect l op r)).truth =
      op.combine (l.evaluate ctx).truth (r.evaluate ctx).truth := by
  simp only [evaluate]
  split
  · rfl
  next decided => exact Connective.combine_of_not_needsRight (Bool.eq_false_iff.mpr decided) _ _

section Truths

variable {ctx : Context} {w : View} (h : ctx.view.Completed w)
include h

namespace Context

theorem perValue_completed (x : Variable) {check : Value → Option Bool}
    (hcheck : ∀ y z, y.Completed z → Learnt (check y) (check z)) :
    (ctx.perValue x check).truth.KeptBy (({ ctx with view := w }).perValue x check).truth := by
  refine Verdict.truth_ofJudged_kept (List.rel_map (fun a b hab => ?_) (h.valuesOf x.name))
  exact ⟨congrArg (fun s => [s]) hab.1, .ofOption (hcheck _ _ hab.2)⟩

theorem valued_completed (a : Atom) {check : Value → Option Bool}
    (hcheck : ∀ y z, y.Completed z → Learnt (check y) (check z)) :
    (ctx.valued a check).truth.KeptBy (({ ctx with view := w }).valued a check).truth := by
  unfold valued
  cases a.terms.findSome? Term.var? with
  | none => exact .refl _
  | some x => exact perValue_completed h x hcheck

theorem typed_completed (a : Atom) (check : String → String → Bool) :
    (ctx.typed a check).truth.KeptBy (({ ctx with view := w }).typed a check).truth := by
  unfold typed
  cases a.terms.findSome? Term.var? with
  | none => exact .refl _
  | some x =>
    cases a.terms.findSome? Term.type? with
    | none => exact .refl _
    | some type =>
      -- what is learnt is no static type, so no answer changes at all
      exact perValue_completed h x fun y z hyz => .inr (by rw [hyz.staticType])

theorem builtin_completed (a : Atom) (b : Builtin) :
    (ctx.builtin a b).truth.KeptBy (({ ctx with view := w }).builtin a b).truth := by
  have calls : ({ ctx with view := w } : Context).matchingCalls a = ctx.matchingCalls a := by
    simp only [matchingCalls, h.calls]
  cases b with
  | callTo => exact .inr (by simp only [builtin, calls])
  | noCallTo => exact .inr (by simp only [builtin, calls])
  | neverTypeOf => exact typed_completed h a _
  | instanceOf => exact typed_completed h a _
  | length => exact valued_completed h a fun y z hyz => (hyz.constant?.bind fun _ => .refl _).map _
  | notHardCoded =>
    refine valued_completed h a fun y z hyz => ?_
    rcases hyz.content with unknown | same
    · exact .inl (by simp only [unknown])
    · exact .inr (by simp only [same])

theorem applies_completed {p : Predicate}
    (hlookup : (ctx.lookup p ctx.view).truth.KeptBy (ctx.lookup p w).truth) :
    (ctx.applies p).truth.KeptBy (({ ctx with view := w }).applies p).truth := by
  unfold applies
  cases p.atom.builtin? with
  | some b =>
    have kept := builtin_completed h p.atom b
    cases p.atom.negated with
    | true => exact kept.negate
    | false => exact kept
  | none => exact hlookup

theorem arithmetic_completed (e : Arithmetic) :
    (ctx.arithmetic e).truth.KeptBy (({ ctx with view := w }).arithmetic e).truth := by
  have limit : ({ ctx with view := w } : Context).limit = ctx.limit := rfl
  unfold arithmetic
  rw [limit]
  rcases e.candidates?_completed h ctx.limit with ⟨hv, hw⟩ | ⟨cs, ds, hv, hw, completed⟩
  · exact .inl (by rw [hv]; rfl)
  · rw [hv, hw]
    refine Verdict.truth_ofJudged_kept (List.rel_map (fun c d hcd => ?_) completed)
    exact ⟨hcd.sites, .ofOption ((hcd.value.bind fun _ => .refl _).map _)⟩

theorem comparison_completed (l : Arithmetic) (op : Comparison) (r : Arithmetic) :
    (ctx.comparison l op r).truth.KeptBy (({ ctx with view := w }).comparison l op r).truth := by
  have limit : ({ ctx with view := w } : Context).limit = ctx.limit := rfl
  unfold comparison
  rw [limit]
  rcases l.candidates?_completed h ctx.limit with ⟨hv, hw⟩ | ⟨ls, ls', hv, hw, left⟩
  · exact .inl (by rw [hv]; rfl)
  · rw [hv, hw]
    rcases r.candidates?_completed h ctx.limit with ⟨hv, hw⟩ | ⟨rs, rs', hv, hw, right⟩
    · exact .inl (by rw [hv]; rfl)
    · rw [hv, hw]
      simp only [left.length_eq, right.length_eq]
      split
      · exact .refl _
      · refine Verdict.truth_ofJudged_kept (List.rel_flatMap left fun c c' hc => ?_)
        refine List.rel_map (fun d d' hd => ?_) right
        exact ⟨by rw [hc.sites, hd.sites], op.judgeOption_completed hc.value hd.value⟩

end Context

/-- **A definite truth stays whatever is learnt**, if the answers of the lookups do. There are no
guards: one that turns out false makes its predicate hold. -/
theorem Constraint.truth_evaluate_completed {c : Constraint}
    (hguards : ∀ p ∈ c.predicates, p.guard = none)
    (hlookup : ∀ p ∈ c.predicates,
      (ctx.lookup p ctx.view).truth.KeptBy (ctx.lookup p w).truth) :
    (c.evaluate ctx).truth.KeptBy (c.evaluate { ctx with view := w }).truth := by
  induction c with
  | member v allowed =>
    exact Context.perValue_completed h v fun y z hyz => (v.textOf?_completed hyz).map _
  | arithmetic e => exact Context.arithmetic_completed h e
  | compare l op r => exact Context.comparison_completed h l op r
  | connect l op r ihl ihr =>
    have left := ihl (fun p hp => hguards p (List.mem_append_right _ hp))
      fun p hp => hlookup p (List.mem_append_right _ hp)
    have right := ihr (fun p hp => hguards p (List.mem_append_left _ hp))
      fun p hp => hlookup p (List.mem_append_left _ hp)
    rw [truth_evaluate_connect, truth_evaluate_connect]
    exact left.combine right op
  | atom a => exact Context.applies_completed h (hlookup ⟨a, none⟩ (List.mem_singleton_self _))
  | guarded a g ih => cases hguards ⟨a, some g⟩ List.mem_cons_self
  | throws m exception => exact .refl _

end Truths

/-- A cipher is set up with a key, for DES or for some other algorithm. -/
def eitherView (other : Value) : View :=
  ⟨"c", "c@1",
    [⟨"1", "alg", .argument 0, [⟨.constant (.text "DES"), none⟩, other]⟩,
     ⟨"1", "key", .argument 1, [⟨.object "k@1", none⟩]⟩],
    []⟩

/-- DES is not allowed and its key was not generated, whatever the other algorithm is. -/
theorem Constraint.truth_evaluate_completed_either :
    let c : Constraint := .connect (.member (.whole "alg" "String") ["AES"]) .or
      (.atom ⟨"generated", [.var (.whole "key" "Key")], false⟩)
    let store := FactStore.empty.publish
      ⟨"generated", [.object "k@2"], false, ⟨"Key", "k", "ready", "2"⟩⟩
    let ctx : Context := ⟨eitherView .unresolved, store.lookup 4, exactTypes, 4⟩
    let w := eitherView ⟨.constant (.text "AES"), none⟩
    ctx.view.Completed w ∧ (∀ p ∈ c.predicates, p.guard = none) ∧
      (∀ p ∈ c.predicates, (ctx.lookup p ctx.view).truth.KeptBy (ctx.lookup p w).truth) ∧
      (c.evaluate ctx).truth = .no ∧ (c.evaluate { ctx with view := w }).truth = .no := by
  intro c store ctx w
  have completed : ctx.view.Completed w :=
    ⟨rfl, rfl, rfl, .cons ⟨rfl, rfl, rfl, .cons ⟨.inr rfl, rfl⟩ (.cons ⟨.inl rfl, rfl⟩ .nil)⟩
      (.cons ⟨rfl, rfl, rfl, .cons ⟨.inr rfl, rfl⟩ .nil⟩ .nil)⟩
  have guards : ∀ p ∈ c.predicates, p.guard = none := by decide
  have lookups : ∀ p ∈ c.predicates,
      (ctx.lookup p ctx.view).truth.KeptBy (ctx.lookup p w).truth := by decide
  have definite : (c.evaluate ctx).truth = .no := by decide +kernel
  have kept := truth_evaluate_completed completed guards lookups
  rw [definite] at kept
  exact ⟨completed, guards, lookups, definite, kept.resolve_left (by decide)⟩

end Misuse
