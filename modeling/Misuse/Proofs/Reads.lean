import Mathlib.Data.List.Basic
import Misuse.Judgement
import Misuse.Keying
import Misuse.Proofs.Parts

/-!
# What constraints read

A verdict depends on the bindings only through the variables that the constraint reads, those
of guards within it included: it is the same if the view is narrowed to them
(`evaluate_narrow`). So are the facts that an effect brings (`factsOf_narrow`), and all that
is judged of an object is the same if the view of each constraint is (`judge_congr`).
-/

namespace Misuse

/-! ## Narrow views -/

namespace View

/-- The view with the bindings of some variables only. -/
def narrow (view : View) (vars : List String) : View :=
  { view with bindings := view.bindings.filter fun b => vars.contains b.var }

variable (view : View) {vars : List String}

theorem valuesOf_narrow {x : String} (hx : x ∈ vars) :
    (view.narrow vars).valuesOf x = view.valuesOf x := by
  have same : ∀ b ∈ view.bindings, (b.var == x && vars.contains b.var) = (b.var == x) := by
    intro b _
    by_cases h : b.var = x
    · simp [h, hx]
    · simp [h]
  unfold valuesOf narrow
  rw [List.filter_filter, List.filter_congr same]

theorem isBound_narrow {x : String} (hx : x ∈ vars) :
    (view.narrow vars).isBound x = view.isBound x := by
  unfold isBound narrow
  rw [List.any_filter]
  congr 1
  funext b
  by_cases h : b.var = x
  · simp [h, hx]
  · simp [h]

theorem firstSite?_narrow {xs : List String} (h : ∀ x ∈ xs, x ∈ vars) :
    (view.narrow vars).firstSite? xs = view.firstSite? xs := by
  unfold firstSite? narrow
  rw [List.find?_filter]
  congr 2
  funext b
  by_cases hb : b.var ∈ xs
  · simp [hb, h b.var hb]
  · simp [hb]

end View

namespace Context

/-- The constraint is judged from a narrower view. -/
def narrow (ctx : Context) (vars : List String) : Context :=
  { ctx with view := ctx.view.narrow vars }

end Context

/-- A lookup that reads the variables of the predicate only. -/
def Lookup.Local (lookup : Lookup) : Prop :=
  ∀ (p : Predicate) (view : View) (vars : List String), (∀ x ∈ p.atom.mentions, x ∈ vars) →
    lookup p (view.narrow vars) = lookup p view

/-! ## Constraints -/

namespace Constraint

/-- The variables a constraint reads, those of guards within it included. -/
def reads : Constraint → List String
  | .connect l _ r => l.reads ++ r.reads
  | .guarded a g => a.mentions ++ g.reads
  | c => c.mentions

theorem mentions_subset_reads (c : Constraint) : ∀ x ∈ c.mentions, x ∈ c.reads := by
  induction c with
  | connect l op r ihl ihr =>
    intro x hx
    rcases List.mem_append.mp hx with hx | hx
    · exact List.mem_append_left _ (ihl x hx)
    · exact List.mem_append_right _ (ihr x hx)
  | guarded a g _ => exact fun x hx => List.mem_append_left _ hx
  | _ => exact fun x hx => hx

end Constraint

variable {vars : List String}

theorem Operand.candidates_narrow (view : View) {e : Operand} (h : ∀ x ∈ e.mentions, x ∈ vars) :
    e.candidates (view.narrow vars) = e.candidates view := by
  cases e with
  | literal c => rfl
  | var v => simp only [candidates, view.valuesOf_narrow (h v.name (List.mem_singleton_self _))]
  | length v => simp only [candidates, view.valuesOf_narrow (h v.name (List.mem_singleton_self _))]

theorem Arithmetic.candidates?_narrow (view : View) (limit : Nat) {e : Arithmetic}
    (h : ∀ x ∈ e.mentions, x ∈ vars) :
    e.candidates? (view.narrow vars) limit = e.candidates? view limit := by
  have left := Operand.candidates_narrow view fun x hx => h x (List.mem_append_left _ hx)
  have right := Operand.candidates_narrow view fun x hx => h x (List.mem_append_right _ hx)
  simp only [candidates?, left, right]

theorem Term.name_mem_mentions {terms : List Term} {v : Variable} {name : String} {negated : Bool}
    (h : terms.findSome? Term.var? = some v) :
    v.name ∈ (⟨name, terms, negated⟩ : Atom).mentions := by
  obtain ⟨t, ht, hv⟩ := List.exists_of_findSome?_eq_some h
  exact List.mem_map_of_mem (List.mem_filterMap.mpr ⟨t, ht, hv⟩)

namespace Context

variable (ctx : Context)

theorem perValue_narrow {v : Variable} (hv : v.name ∈ vars) (check : Value → Option Bool) :
    (ctx.narrow vars).perValue v check = ctx.perValue v check := by
  simp only [perValue, narrow, ctx.view.valuesOf_narrow hv]

theorem valued_narrow {a : Atom} (h : ∀ x ∈ a.mentions, x ∈ vars)
    (check : Value → Option Bool) : (ctx.narrow vars).valued a check = ctx.valued a check := by
  unfold valued
  cases hv : a.terms.findSome? Term.var? with
  | none => rfl
  | some v => exact ctx.perValue_narrow (h v.name (Term.name_mem_mentions hv)) check

theorem typed_narrow {a : Atom} (h : ∀ x ∈ a.mentions, x ∈ vars)
    (check : String → String → Bool) : (ctx.narrow vars).typed a check = ctx.typed a check := by
  unfold typed
  cases hv : a.terms.findSome? Term.var? with
  | none => rfl
  | some v =>
    cases a.terms.findSome? Term.type? with
    | none => rfl
    | some type => exact ctx.perValue_narrow (h v.name (Term.name_mem_mentions hv)) _

theorem builtin_narrow {a : Atom} (h : ∀ x ∈ a.mentions, x ∈ vars) (b : Builtin) :
    (ctx.narrow vars).builtin a b = ctx.builtin a b := by
  cases b with
  | callTo => rfl
  | noCallTo => rfl
  | neverTypeOf => exact ctx.typed_narrow h _
  | instanceOf => exact ctx.typed_narrow h _
  | length => exact ctx.valued_narrow h _
  | notHardCoded => exact ctx.valued_narrow h _

theorem applies_narrow (hl : ctx.lookup.Local) {p : Predicate}
    (h : ∀ x ∈ p.atom.mentions, x ∈ vars) : (ctx.narrow vars).applies p = ctx.applies p := by
  unfold applies
  cases p.atom.builtin? with
  | some b => simp only [ctx.builtin_narrow h]
  | none => exact hl p ctx.view vars h

end Context

namespace Constraint

/-- **A verdict depends on the variables that the constraint reads.** -/
theorem evaluate_narrow {ctx : Context} (hl : ctx.lookup.Local) {c : Constraint}
    (h : ∀ x ∈ c.reads, x ∈ vars) : c.evaluate (ctx.narrow vars) = c.evaluate ctx := by
  induction c with
  | member v allowed =>
    exact ctx.perValue_narrow (h v.name (List.mem_singleton_self _)) fun x =>
      (v.textOf? x).map fun s => allowed.any fun a => Text.sameLetters a s
  | arithmetic e =>
    have := Arithmetic.candidates?_narrow ctx.view ctx.limit h
    simp only [evaluate, Context.arithmetic]
    rw [← this]
    rfl
  | compare l op r =>
    have left := Arithmetic.candidates?_narrow ctx.view ctx.limit (e := l)
      fun x hx => h x (List.mem_append_left _ hx)
    have right := Arithmetic.candidates?_narrow ctx.view ctx.limit (e := r)
      fun x hx => h x (List.mem_append_right _ hx)
    simp only [evaluate, Context.comparison]
    rw [← left, ← right]
    rfl
  | connect l op r ihl ihr =>
    have left := ihl fun x hx => h x (List.mem_append_left _ hx)
    have right := ihr fun x hx => h x (List.mem_append_right _ hx)
    simp only [evaluate, left, right]
  | atom a => exact ctx.applies_narrow hl h
  | guarded a g ih =>
    have guard := ih fun x hx => h x (List.mem_append_right _ hx)
    have applies := ctx.applies_narrow hl (p := ⟨a, some g⟩)
      fun x hx => h x (List.mem_append_left _ hx)
    simp only [evaluate, guard, applies]
  | throws m exception => rfl

end Constraint

/-! ## Facts -/

theorem Term.keys_narrow (view : View) {t : Term} (h : ∀ v, t.var? = some v → v.name ∈ vars) :
    t.keys (view.narrow vars) = t.keys view := by
  cases t with
  | var v => simp only [keys, view.valuesOf_narrow (h v rfl)]
  | _ => rfl

theorem Atom.columns_narrow (view : View) {a : Atom} (h : ∀ x ∈ a.mentions, x ∈ vars) :
    a.columns (view.narrow vars) = a.columns view := by
  refine List.map_congr_left fun t ht => Term.keys_narrow view fun v hv => ?_
  exact h v.name (List.mem_map_of_mem (List.mem_filterMap.mpr ⟨t, ht, hv⟩))

theorem FactStore.local_lookup (s : FactStore) (cap : Nat) : (s.lookup cap).Local := by
  intro p view vars h
  simp only [lookup, Atom.exactColumns?, Atom.columns_narrow view h]

/-- **The facts of an effect depend on the variables of its predicate.** -/
theorem Rule.factsOf_narrow (r : Rule) (view : View) (cap : Nat) {t : Trigger}
    (h : ∀ e, r.effects[t.effect]? = some e → ∀ x ∈ e.predicate.atom.mentions, x ∈ vars) :
    r.factsOf (view.narrow vars) cap t = r.factsOf view cap t := by
  unfold factsOf
  cases he : r.effects[t.effect]? with
  | none => rfl
  | some e =>
    have columns := Atom.columns_narrow view (h e he)
    simp only [Atom.published, Atom.exactColumns?, Atom.widenedColumns, columns]
    rfl

/-! ## Judgements -/

/-- What is collected from both sides of a connective is collected from every disjunct. -/
theorem Constraint.subset_of_mem_disjuncts {α : Type} {f : Constraint → List α}
    (hf : ∀ l op r, f l ⊆ f (.connect l op r) ∧ f r ⊆ f (.connect l op r)) {c : Constraint}
    {ps : List Predicate} (h : c.disjuncts? = some ps) :
    ∀ p ∈ ps, f p.toConstraint ⊆ f c := by
  rw [disjuncts?_eq_some_iff] at h
  induction h with
  | leaf p _ =>
    intro q hq
    rw [List.mem_singleton.mp hq]
    exact List.Subset.refl _
  | @or l r _ _ _ _ ihl ihr =>
    intro p hp
    rcases List.mem_append.mp hp with hp | hp
    · exact List.Subset.trans (ihl p hp) (hf l .or r).1
    · exact List.Subset.trans (ihr p hp) (hf l .or r).2

/-- The same goes for the members of a requirement. -/
theorem Requirement.subset_of_mem_members {α : Type} {f : Constraint → List α}
    (hf : ∀ l op r, f l ⊆ f (.connect l op r) ∧ f r ⊆ f (.connect l op r)) {c : Constraint}
    {q : Requirement} (h : ofConstraint? c = some q) :
    ∀ p ∈ q.members, f p.toConstraint ⊆ f c := by
  unfold ofConstraint? at h
  split at h
  next a =>
    simp only [Option.ite_none_right_eq_some, Option.some.injEq] at h
    rw [← h.2]
    intro p hp
    rw [List.mem_singleton.mp hp]
    exact List.Subset.refl _
  next a g =>
    simp only [Option.ite_none_right_eq_some, Option.some.injEq] at h
    rw [← h.2]
    intro p hp
    rw [List.mem_singleton.mp hp]
    exact List.Subset.refl _
  next l op r =>
    split at h
    · simp only [Option.ite_none_right_eq_some, Option.map_eq_some_iff,
        Constraint.alternatives?_eq] at h
      obtain ⟨-, a, ⟨ps, hps, rfl⟩, rfl⟩ := h
      intro p hp
      exact Constraint.subset_of_mem_disjuncts hf hps p
        ((distinctBy_sublist Predicate.forgetResults ps).subset hp)
    · cases h
  next => cases h

/-- A requirement reads what its constraint reads. -/
theorem Requirement.reads_of_mem_members {c : Constraint} {q : Requirement}
    (h : ofConstraint? c = some q) :
    ∀ p ∈ q.members, ∀ x ∈ p.toConstraint.reads, x ∈ c.reads :=
  fun p hp _ hx => subset_of_mem_members (f := Constraint.reads)
    (fun _ _ _ => ⟨List.subset_append_left .., List.subset_append_right ..⟩) h p hp hx

/-- The predicates of a requirement are predicates of its constraint. -/
theorem Requirement.predicates_of_mem_members {c : Constraint} {q : Requirement}
    (h : ofConstraint? c = some q) :
    ∀ p ∈ q.members, ∀ p' ∈ p.toConstraint.predicates, p' ∈ c.predicates :=
  fun p hp _ hp' => subset_of_mem_members (f := Constraint.predicates)
    (fun _ _ _ => ⟨List.subset_append_right .., List.subset_append_left ..⟩) h p hp hp'

theorem Requirement.mentions_of_mem_members {c : Constraint} {q : Requirement}
    (h : ofConstraint? c = some q) :
    ∀ x ∈ q.members.flatMap fun p => p.atom.mentions, x ∈ c.reads := by
  intro x hx
  obtain ⟨p, hp, hx⟩ := List.mem_flatMap.mp hx
  refine reads_of_mem_members h p hp x ?_
  refine p.toConstraint.mentions_subset_reads x ?_
  unfold Predicate.toConstraint
  cases p.guard <;> exact hx

namespace Policy

variable (policy : Policy) (view : View)

theorem isReady_narrow {c : Constraint} (h : ∀ x ∈ c.reads, x ∈ vars) :
    policy.isReady (view.narrow vars) c = policy.isReady view c := by
  unfold isReady
  rw [Bool.eq_iff_iff, List.all_eq_true, List.all_eq_true]
  refine forall₂_congr fun x hx => ?_
  rw [view.isBound_narrow (h x (c.mentions_subset_reads x hx))]

theorem place_narrow {c : Constraint} (h : ∀ x ∈ c.reads, x ∈ vars) :
    policy.place (view.narrow vars) c = policy.place view c := by
  unfold place
  rw [policy.isReady_narrow view h]

theorem anchor?_narrow {c : Constraint} (h : ∀ x ∈ c.reads, x ∈ vars) {q : Requirement}
    (hq : Requirement.ofConstraint? c = some q) :
    policy.anchor? (view.narrow vars) q = policy.anchor? view q :=
  view.firstSite?_narrow fun x hx =>
    h x (Requirement.mentions_of_mem_members hq x (List.mem_filter.mp hx).1)

variable {r : Rule}

/-- Where constraints go depends, one by one, on the variables that they read. -/
theorem placements_congr {view view' : View}
    (h : ∀ c ∈ r.constraints, view.narrow c.reads = view'.narrow c.reads) (indices : List Nat) :
    policy.placements r view indices = policy.placements r view' indices := by
  refine List.filterMap_congr fun i _ => ?_
  cases hi : r.constraints[i]? with
  | none => rfl
  | some c =>
    have place : policy.place view c = policy.place view' c := by
      rw [← policy.place_narrow view fun _ hx => hx, h c (List.mem_of_getElem? hi),
        policy.place_narrow view' fun _ hx => hx]
    simp only [place]

theorem partition_congr {view view' : View}
    (h : ∀ c ∈ r.constraints, view.narrow c.reads = view'.narrow c.reads) (indices : List Nat) :
    policy.partition r view indices = policy.partition r view' indices := by
  unfold partition
  simp only [policy.placements_congr h, Partition.mk.injEq, true_and, and_true]
  refine List.filterMap_congr fun p hp => ?_
  obtain ⟨i, place⟩ := p
  cases place with
  | required q =>
    obtain ⟨-, c, hc, -, hplace⟩ := mem_placements_iff.mp hp
    have hq := (place_eq_required_iff.mp hplace).2
    have anchor : policy.anchor? view q = policy.anchor? view' q := by
      rw [← policy.anchor?_narrow view (fun _ hx => hx) hq, h c (List.mem_of_getElem? hc),
        policy.anchor?_narrow view' (fun _ hx => hx) hq]
    simp only [anchor]
  | _ => rfl

end Policy

namespace Rule

/-- The variables that the constraints of a rule read. -/
def reads (r : Rule) : List String := r.constraints.flatMap Constraint.reads

variable {r : Rule} {ctx : Context}

theorem directRecord?_narrow (hl : ctx.lookup.Local) {c : Constraint}
    (h : ∀ x ∈ c.reads, x ∈ vars) :
    r.directRecord? (ctx.narrow vars) c = r.directRecord? ctx c := by
  unfold directRecord?
  rw [Constraint.evaluate_narrow hl h]
  rfl

theorem requiredRecord?_narrow (hl : ctx.lookup.Local) {q : Required} {c : Constraint}
    (h : ∀ x ∈ c.reads, x ∈ vars) (hq : Requirement.ofConstraint? c = some q.requirement) :
    r.requiredRecord? (ctx.narrow vars) q = r.requiredRecord? ctx q := by
  have truth : requirementTruth (ctx.narrow vars) q.requirement =
      requirementTruth ctx q.requirement := by
    have truths : q.requirement.members.map (fun p => (p.evaluate (ctx.narrow vars)).truth) =
        q.requirement.members.map fun p => (p.evaluate ctx).truth := by
      refine List.map_congr_left fun p hp => congrArg Verdict.truth ?_
      exact Constraint.evaluate_narrow hl fun x hx =>
        h x (Requirement.reads_of_mem_members hq p hp x hx)
    simp only [requirementTruth, truths]
  unfold requiredRecord?
  rw [truth]
  rfl

/-- **What is judged of an object depends, constraint by constraint, on the variables that
are read.** -/
theorem judge_congr (policy : Policy) (hl : ctx.lookup.Local) {view : View}
    (h : ∀ c ∈ r.constraints, ctx.view.narrow c.reads = view.narrow c.reads) :
    r.judge policy ctx = r.judge policy { ctx with view } := by
  have narrow : ∀ c ∈ r.constraints,
      ctx.narrow c.reads = ({ ctx with view } : Context).narrow c.reads := by
    intro c hc
    simp only [Context.narrow, h c hc]
  have hl' : ({ ctx with view } : Context).lookup.Local := hl
  have direct : ∀ indices, r.directRecords ctx indices =
      r.directRecords { ctx with view } indices := by
    intro indices
    refine List.filterMap_congr fun i _ => ?_
    cases hi : r.constraints[i]? with
    | none => rfl
    | some c =>
      have here : r.directRecord? (ctx.narrow c.reads) c = r.directRecord? ctx c :=
        directRecord?_narrow hl fun _ hx => hx
      have there : r.directRecord? (({ ctx with view } : Context).narrow c.reads) c =
          r.directRecord? { ctx with view } c := directRecord?_narrow hl' fun _ hx => hx
      rw [Option.bind_some, Option.bind_some, ← here, ← there, narrow c (List.mem_of_getElem? hi)]
  have required : r.requiredRecords ctx (policy.partition r view r.constraintIndices).required =
      r.requiredRecords { ctx with view }
        (policy.partition r view r.constraintIndices).required := by
    refine List.filterMap_congr fun q hq => ?_
    obtain ⟨c, hc, hof⟩ := Policy.exists_of_mem_required hq
    have here : r.requiredRecord? (ctx.narrow c.reads) q = r.requiredRecord? ctx q :=
      requiredRecord?_narrow hl (fun _ hx => hx) hof
    have there : r.requiredRecord? (({ ctx with view } : Context).narrow c.reads) q =
        r.requiredRecord? { ctx with view } q := requiredRecord?_narrow hl' (fun _ hx => hx) hof
    rw [← here, ← there, narrow c (List.mem_of_getElem? hc)]
  unfold judge judgeOnly
  simp only [policy.partition_congr h, direct, required]

end Rule

end Misuse
