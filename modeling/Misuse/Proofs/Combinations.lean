import Misuse.Evaluation

/-!
# Verdicts over combinations

An operand offers the values that are bound to its variable, or its literal. An expression offers
a value for each combination of these (`Arithmetic.Offers`), and a comparison comes out one way or
another for each combination of two expressions (`Constraint.Outcome`). Within the cap the verdict
is told by the outcomes if a variable is mentioned (`truth_of_outcomes`). The verdict counts the
sites of the outcomes, so the one outcome of literals alone, which has no site, does not count, and
what is false of literals holds (`holds_of_literals`).
-/

namespace Misuse

/-! ## What is offered -/

/-- The values of an operand; `none` is one that cannot be determined. -/
def Operand.Offers (view : View) : Operand → Option Scalar → Prop
  | .literal c, x => x = Scalar.ofConstant? c
  | .var v, x => ∃ b ∈ view.valuesOf v.name, x = v.scalarOf? b.2
  | .length v, x => ∃ b ∈ view.valuesOf v.name, x = (v.lengthOf? b.2).map fun n : Nat => .int n

/-- How many values an operand offers. -/
def Operand.count (view : View) : Operand → Nat
  | .literal _ => 1
  | .var v | .length v => (view.valuesOf v.name).length

namespace Arithmetic

/-- The value of an expression from those of its operands. A lone operand keeps its own. -/
def valueAt (e : Arithmetic) (a b : Option Scalar) : Option Scalar :=
  if e.isLift then a
  else (a.bind Scalar.asInt?).bind fun m => (b.bind Scalar.asInt?).bind fun n =>
    (e.op.compute? m n).map .int

/-- The values of an expression, one for each combination. -/
def Offers (view : View) (e : Arithmetic) (x : Option Scalar) : Prop :=
  ∃ a b, e.left.Offers view a ∧ e.right.Offers view b ∧ x = e.valueAt a b

def count (view : View) (e : Arithmetic) : Nat :=
  if e.isLift then e.left.count view else e.left.count view * e.right.count view

/-- The combinations are not too many; a lone operand is not capped. -/
def Within (view : View) (limit : Nat) (e : Arithmetic) : Prop :=
  e.isLift = true ∨ e.count view ≤ limit

instance (view : View) (limit : Nat) (e : Arithmetic) : Decidable (e.Within view limit) :=
  inferInstanceAs (Decidable (_ ∨ _))

end Arithmetic

namespace Constraint

/-- A lone expression or a comparison. -/
def isNumeric : Constraint → Bool
  | .arithmetic _ | .compare _ _ _ => true
  | _ => false

/-- Some combination comes out as this truth. A lone expression fails where it is zero. -/
def Outcome (view : View) : Constraint → Truth → Prop
  | .arithmetic e, t => ∃ x, e.Offers view x ∧
      t = .ofOption ((x.bind Scalar.asInt?).map fun n => n != 0)
  | .compare l op r, t => ∃ x y, l.Offers view x ∧ r.Offers view y ∧ t = op.judgeOption x y
  | _, _ => False

/-- The combinations are not more than the cap. -/
def Within (ctx : Context) : Constraint → Prop
  | .arithmetic e => e.Within ctx.view ctx.limit
  | .compare l _ r => l.Within ctx.view ctx.limit ∧ r.Within ctx.view ctx.limit ∧
      l.count ctx.view * r.count ctx.view ≤ ctx.limit
  | _ => True

instance (ctx : Context) : (c : Constraint) → Decidable (c.Within ctx)
  | .arithmetic _ => inferInstanceAs (Decidable (Arithmetic.Within _ _ _))
  | .compare _ _ _ => inferInstanceAs (Decidable (_ ∧ _ ∧ _))
  | .member .. | .connect .. | .atom _ | .guarded .. | .throws .. => isTrue trivial

end Constraint

/-! ## Candidates -/

namespace Operand

theorem offers_iff (view : View) (o : Operand) (x : Option Scalar) :
    o.Offers view x ↔ ∃ c ∈ o.candidates view, c.value = x := by
  cases o with
  | literal c => simp [Offers, candidates, eq_comm]
  | var v =>
    constructor
    · rintro ⟨b, hb, rfl⟩
      exact ⟨_, List.mem_map_of_mem hb, rfl⟩
    · rintro ⟨_, hc, rfl⟩
      obtain ⟨b, hb, rfl⟩ := List.mem_map.mp hc
      exact ⟨b, hb, rfl⟩
  | length v =>
    -- the candidates lift each length before they wrap it
    have lifted (b : String × Value) :
        ((v.lengthOf? b.2).map fun n => Scalar.int (n : Int)) =
          (v.lengthOf? b.2).map fun n : Nat => .int n := by
      cases v.lengthOf? b.2 <;> rfl
    constructor
    · rintro ⟨b, hb, rfl⟩
      exact ⟨_, List.mem_map_of_mem hb, lifted b⟩
    · rintro ⟨_, hc, rfl⟩
      obtain ⟨b, hb, rfl⟩ := List.mem_map.mp hc
      exact ⟨b, hb, lifted b⟩

theorem length_candidates (view : View) (o : Operand) :
    (o.candidates view).length = o.count view := by
  cases o <;> simp [count, candidates]

/-- Only a literal has no site. -/
theorem sites_eq_nil_iff {view : View} {o : Operand} {c : Candidate} (h : c ∈ o.candidates view) :
    c.sites = [] ↔ o.mentions = [] := by
  cases o with
  | literal value =>
    obtain rfl := List.mem_singleton.mp h
    simp [mentions]
  | var v =>
    obtain ⟨b, -, rfl⟩ := List.mem_map.mp h
    simp [mentions]
  | length v =>
    obtain ⟨b, -, rfl⟩ := List.mem_map.mp h
    simp [mentions]

/-- A variable without values leaves nothing to offer. -/
theorem not_offers_of_unbound {view : View} {o : Operand} {x : String} (h : x ∈ o.mentions)
    (unbound : view.valuesOf x = []) (a : Option Scalar) : ¬ o.Offers view a := by
  cases o <;> simp_all [mentions, Offers]

end Operand

theorem Arithmetic.not_offers_of_unbound {view : View} {e : Arithmetic} {x : String}
    (h : x ∈ e.mentions) (unbound : view.valuesOf x = []) (a : Option Scalar) :
    ¬ e.Offers view a := by
  rintro ⟨b, c, hb, hc, -⟩
  rcases List.mem_append.mp h with left | right
  · exact Operand.not_offers_of_unbound left unbound b hb
  · exact Operand.not_offers_of_unbound right unbound c hc

/-- Candidates that stand for the values an expression offers. They come with a site if the
expression mentions a variable. -/
structure Arithmetic.Candidates (view : View) (e : Arithmetic) (cs : List Candidate) : Prop where
  offers : ∀ x, e.Offers view x ↔ ∃ c ∈ cs, c.value = x
  sites : ∀ c ∈ cs, (c.sites = [] ↔ e.mentions = [])
  length : cs.length = e.count view

/-- **Within the cap every combination is a candidate.** -/
theorem Arithmetic.exists_candidates {view : View} {limit : Nat} {e : Arithmetic}
    (h : e.Within view limit) :
    ∃ cs, e.candidates? view limit = some cs ∧ e.Candidates view cs := by
  unfold candidates?
  split
  next lone =>
    have zero : e.right = .literal (.int 0) := by
      simpa [isLift] using (Bool.and_eq_true_iff.mp lone).2
    refine ⟨_, rfl, fun x => ?_, fun c hc => ?_, ?_⟩
    · simp [Offers, valueAt, lone, zero, Operand.Offers, ← Operand.offers_iff]
    · rw [Operand.sites_eq_nil_iff hc, mentions, zero]
      simp [Operand.mentions]
    · rw [Operand.length_candidates, count, if_pos lone]
  next both =>
    have few : ¬ (e.left.candidates view).length * (e.right.candidates view).length > limit := by
      rw [Operand.length_candidates, Operand.length_candidates]
      have within := h.resolve_left both
      rw [count, if_neg both] at within
      omega
    refine ⟨_, if_neg few, fun x => ?_, fun c hc => ?_, ?_⟩
    · simp only [Offers, valueAt, if_neg both, Operand.offers_iff, List.mem_flatMap, List.mem_map]
      constructor
      · rintro ⟨_, _, ⟨l, hl, rfl⟩, ⟨r, hr, rfl⟩, rfl⟩
        exact ⟨combine e.op l r, ⟨l, hl, r, hr, rfl⟩, rfl⟩
      · rintro ⟨_, ⟨l, hl, r, hr, rfl⟩, rfl⟩
        exact ⟨l.value, r.value, ⟨l, hl, rfl⟩, ⟨r, hr, rfl⟩, rfl⟩
    · obtain ⟨l, hl, hc⟩ := List.mem_flatMap.mp hc
      obtain ⟨r, hr, rfl⟩ := List.mem_map.mp hc
      simp only [combine, mentions, List.append_eq_nil_iff, Operand.sites_eq_nil_iff hl,
        Operand.sites_eq_nil_iff hr]
    · rw [count, if_neg both, List.length_flatMap, ← Operand.length_candidates,
        ← Operand.length_candidates]
      simp only [List.length_map, List.map_const', List.sum_replicate_nat]

/-! ## Verdicts -/

namespace Verdict

/-- The items of a truth have sites. -/
theorem sites_ne_nil_iff (items : List (Truth × List String)) (t : Truth) :
    (items.filter fun i => i.1 == t).flatMap Prod.snd ≠ [] ↔ ∃ i ∈ items, i.1 = t ∧ i.2 ≠ [] := by
  simp [List.flatMap_eq_nil_iff]

theorem truth_ofSites_iff (failing unclear : List String) :
    ((ofSites failing unclear).truth = .no ↔ failing ≠ []) ∧
      ((ofSites failing unclear).truth = .unclear ↔ failing = [] ∧ unclear ≠ []) := by
  cases failing <;> cases unclear <;> simp [ofSites, withSites, holds, plain]

/-- Only items with a site count. -/
theorem truth_ofJudged_iff (items : List (Truth × List String)) :
    ((ofJudged items).truth = .no ↔ ∃ i ∈ items, i.1 = .no ∧ i.2 ≠ []) ∧
      ((ofJudged items).truth = .unclear ↔
        (¬ ∃ i ∈ items, i.1 = .no ∧ i.2 ≠ []) ∧ ∃ i ∈ items, i.1 = .unclear ∧ i.2 ≠ []) := by
  simp only [← sites_ne_nil_iff, Decidable.not_not]
  exact truth_ofSites_iff _ _

end Verdict

/-! ## Outcomes -/

namespace Constraint

/-- The truth that the outcomes tell: one that fails is enough, else one that is undetermined. -/
def Told (view : View) (c : Constraint) : Truth → Prop
  | .no => c.Outcome view .no
  | .unclear => ¬ c.Outcome view .no ∧ c.Outcome view .unclear
  | .yes => ¬ c.Outcome view .no ∧ ¬ c.Outcome view .unclear

variable {ctx : Context} {view : View} {c : Constraint} {items : List (Truth × List String)}

/-- The outcomes tell one truth. -/
theorem Told.unique {t u : Truth} (ht : c.Told view t) (hu : c.Told view u) : t = u := by
  cases t <;> cases u <;> simp_all [Told]

/-- Judged items that stand for the outcomes. They come with a site if a variable is mentioned. -/
structure Items (view : View) (c : Constraint) (items : List (Truth × List String)) : Prop where
  outcome : ∀ t, c.Outcome view t ↔ ∃ i ∈ items, i.1 = t
  sites : ∀ i ∈ items, (i.2 = [] ↔ c.mentions = [])

/-- **Within the cap every combination is judged.** -/
theorem exists_items (hnum : c.isNumeric = true) (hcap : c.Within ctx) :
    ∃ items, c.evaluate ctx = .ofJudged items ∧ c.Items ctx.view items := by
  cases c with
  | arithmetic e =>
    obtain ⟨cs, hcs, all⟩ := Arithmetic.exists_candidates hcap
    refine ⟨_, by rw [evaluate, Context.arithmetic, hcs], fun t => ?_, ?_⟩
    · simp only [Outcome, all.offers, List.mem_map]
      constructor
      · rintro ⟨_, ⟨c, hc, rfl⟩, rfl⟩
        exact ⟨_, ⟨c, hc, rfl⟩, rfl⟩
      · rintro ⟨_, ⟨c, hc, rfl⟩, rfl⟩
        exact ⟨_, ⟨c, hc, rfl⟩, rfl⟩
    · rintro i hi
      obtain ⟨c, hc, rfl⟩ := List.mem_map.mp hi
      exact all.sites c hc
  | compare l op r =>
    obtain ⟨hl, hr, few⟩ := hcap
    obtain ⟨ls, hls, left⟩ := Arithmetic.exists_candidates hl
    obtain ⟨rs, hrs, right⟩ := Arithmetic.exists_candidates hr
    rw [← left.length, ← right.length] at few
    refine ⟨_, by rw [evaluate, Context.comparison, hls, hrs]; exact if_neg (by omega),
      fun t => ?_, ?_⟩
    · simp only [Outcome, left.offers, right.offers, List.mem_flatMap, List.mem_map]
      constructor
      · rintro ⟨_, _, ⟨c, hc, rfl⟩, ⟨d, hd, rfl⟩, rfl⟩
        exact ⟨_, ⟨c, hc, d, hd, rfl⟩, rfl⟩
      · rintro ⟨_, ⟨c, hc, d, hd, rfl⟩, rfl⟩
        exact ⟨_, _, ⟨c, hc, rfl⟩, ⟨d, hd, rfl⟩, rfl⟩
    · rintro i hi
      obtain ⟨c, hc, hi⟩ := List.mem_flatMap.mp hi
      obtain ⟨d, hd, rfl⟩ := List.mem_map.mp hi
      simp only [mentions, List.append_eq_nil_iff, left.sites c hc, right.sites d hd]
  | member | connect | atom | guarded | throws => cases hnum

/-- Where every outcome has a site, all of them count. -/
theorem Items.told_truth (h : c.Items view items) (sited : c.mentions ≠ []) :
    c.Told view (Verdict.ofJudged items).truth := by
  have counted (t : Truth) : (∃ i ∈ items, i.1 = t ∧ i.2 ≠ []) ↔ c.Outcome view t := by
    rw [h.outcome]
    exact ⟨fun ⟨i, hi, ht, _⟩ => ⟨i, hi, ht⟩,
      fun ⟨i, hi, ht⟩ => ⟨i, hi, ht, mt (h.sites i hi).mp sited⟩⟩
  obtain ⟨no, unclear⟩ := Verdict.truth_ofJudged_iff items
  rw [counted] at no
  rw [counted, counted] at unclear
  cases truth : (Verdict.ofJudged items).truth with
  | no => exact no.mp truth
  | unclear => exact unclear.mp truth
  | yes =>
    have nothing : ¬ c.Outcome view .no := fun fails => by simp [no.mpr fails] at truth
    exact ⟨nothing, fun undetermined => by
      simp [unclear.mpr ⟨nothing, undetermined⟩] at truth⟩

/-- Where no outcome has a site, none of them counts. -/
theorem Items.truth_of_literals (h : c.Items view items) (literals : c.mentions = []) :
    (Verdict.ofJudged items).truth = .yes := by
  have none_sited (t : Truth) : ¬ ∃ i ∈ items, i.1 = t ∧ i.2 ≠ [] :=
    fun ⟨i, hi, _, sited⟩ => sited ((h.sites i hi).mpr literals)
  obtain ⟨no, unclear⟩ := Verdict.truth_ofJudged_iff items
  cases truth : (Verdict.ofJudged items).truth with
  | no => exact absurd (no.mp truth) (none_sited _)
  | unclear => exact absurd (unclear.mp truth).2 (none_sited _)
  | yes => rfl

/-- Where a variable has no values there is no outcome. -/
theorem told_of_unbound {x : String} (hx : x ∈ c.mentions) (unbound : view.valuesOf x = [])
    (hnum : c.isNumeric = true) : c.Told view .yes := by
  have nothing (t : Truth) : ¬ c.Outcome view t := by
    cases c with
    | arithmetic e =>
      rintro ⟨a, ha, -⟩
      exact Arithmetic.not_offers_of_unbound hx unbound a ha
    | compare l op r =>
      rintro ⟨a, b, ha, hb, -⟩
      rcases List.mem_append.mp hx with hl | hr
      · exact Arithmetic.not_offers_of_unbound hl unbound a ha
      · exact Arithmetic.not_offers_of_unbound hr unbound b hb
    | member | connect | atom | guarded | throws => cases hnum
  exact ⟨nothing _, nothing _⟩

/-- **The verdict is told by the outcomes**, unless they are of literals alone and do not hold:
these hold all the same. In particular a variable without values constrains nothing. -/
theorem truth_of_outcomes (hnum : c.isNumeric = true) (hcap : c.Within ctx) :
    (c.mentions ≠ [] → ∀ t, (c.evaluate ctx).truth = t ↔ c.Told ctx.view t) ∧
      (c.mentions = [] → (c.evaluate ctx).truth = .yes) ∧
      (c.Told ctx.view (c.evaluate ctx).truth ↔ c.mentions ≠ [] ∨ c.Told ctx.view .yes) ∧
      ∀ x ∈ c.mentions, ctx.view.valuesOf x = [] → (c.evaluate ctx).truth = .yes := by
  obtain ⟨items, judged, all⟩ := exists_items hnum hcap
  rw [judged]
  refine ⟨fun h t => ⟨?_, (all.told_truth h).unique⟩, all.truth_of_literals, ⟨?_, ?_⟩, ?_⟩
  · rintro rfl
    exact all.told_truth h
  · intro told
    by_cases h : c.mentions = []
    · exact .inr (all.truth_of_literals h ▸ told)
    · exact .inl h
  · rintro (h | told)
    · exact all.told_truth h
    · by_cases h : c.mentions = []
      · exact (all.truth_of_literals h).symm ▸ told
      · exact all.told_truth h
  · intro x hx unbound
    have sited : c.mentions ≠ [] := List.ne_nil_of_mem hx
    exact (all.told_truth sited).unique (told_of_unbound hx unbound hnum)

/-- Two texts are bound to a transformation, of which one spells no block size. -/
def piecesView : View :=
  ⟨"c", "c@1", [⟨"1", "alg", .argument 0,
    [⟨.constant (.text "AES/128"), none⟩, ⟨.constant (.text "AES/CBC"), none⟩]⟩], []⟩

/-- A size of 128 is less than 256, and nothing is known of the order of texts. -/
theorem truth_of_outcomes_pieces :
    let c : Constraint := .compare (.lift (.var (Variable.whole "alg" "String").mode)) .lt
      (.lift (.literal (.int 256)))
    let ctx : Context := ⟨piecesView, noFacts, exactTypes, 2⟩
    c.isNumeric = true ∧ c.Within ctx ∧ c.mentions ≠ [] ∧
      ¬ c.Outcome ctx.view .no ∧ c.Outcome ctx.view .unclear := by
  intro c ctx
  have within : c.Within ctx := by decide
  have truth : (c.evaluate ctx).truth = .unclear := by decide +kernel
  have told := ((truth_of_outcomes rfl within).1 (by decide) .unclear).mp truth
  exact ⟨rfl, within, by decide, told⟩

/-- What is false of literals holds: no site says otherwise. -/
theorem holds_of_literals :
    let c : Constraint := .compare (.lift (.literal (.int 1))) .gt (.lift (.literal (.int 2)))
    let d : Constraint := .arithmetic ⟨.literal (.int 1), .sub, .literal (.int 1)⟩
    let ctx : Context := ⟨piecesView, noFacts, exactTypes, 2⟩
    (c.isNumeric = true ∧ c.Within ctx ∧ c.Outcome ctx.view .no ∧ (c.evaluate ctx).truth = .yes) ∧
      (d.isNumeric = true ∧ d.Within ctx ∧ d.Outcome ctx.view .no ∧
        (d.evaluate ctx).truth = .yes) := by
  intro c d ctx
  have smaller : c.Outcome ctx.view .no :=
    ⟨some (.int 1), some (.int 2), ⟨_, some (.int 0), rfl, rfl, rfl⟩,
      ⟨_, some (.int 0), rfl, rfl, rfl⟩, rfl⟩
  have zero : d.Outcome ctx.view .no :=
    ⟨some (.int 0), ⟨some (.int 1), some (.int 1), rfl, rfl, rfl⟩, rfl⟩
  exact ⟨⟨rfl, by decide, smaller, by decide⟩, rfl, by decide, zero, by decide⟩

end Constraint

end Misuse
