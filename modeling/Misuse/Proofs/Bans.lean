import Misuse.Proofs.Chronicle

/-!
# Bans and `noCallTo`

A method may be banned, and it may be forbidden by a constraint. Both look at all calls of an
object, whatever its states: a ban is reported by each call that the matcher of the session
accepts (`Rule.reports_iff`), and `noCallTo` fails if there is a call that a matcher with fuzzy
matching accepts (`Context.truth_noCallTo`). So the two agree if the session matches fuzzily,
and otherwise exactly if no call on a subtype is what the constraint fails by
(`Session.noCallTo_of_run`).
-/

namespace Misuse

namespace Matcher

/-- A match is exact, or fuzzy if fuzzy matches count. -/
theorem accepts_iff (m : Matcher) (entry : Signature) (called : Callee) :
    m.accepts entry called = true ↔
      closeness? ⟨m.subtyping, true⟩ entry called = some .exact ∨
        m.fuzzy = true ∧ closeness? ⟨m.subtyping, true⟩ entry called = some .fuzzy := by
  unfold accepts closeness?
  cases m.fuzzy <;> grind

/-- Some call matches one of the methods that closely, if fuzzy matches count. -/
def Meets (subtyping : Subtyping) (methods : List Signature) (calls : List Call)
    (closeness : Closeness) : Prop :=
  ∃ call ∈ calls, ∃ entry ∈ methods,
    closeness? ⟨subtyping, true⟩ entry call.callee = some closeness

/-- Some call is accepted as one of the methods. -/
theorem exists_accepts_iff (m : Matcher) (methods : List Signature) (calls : List Call) :
    (∃ call ∈ calls, ∃ entry ∈ methods, m.accepts entry call.callee = true) ↔
      Meets m.subtyping methods calls .exact ∨
        m.fuzzy = true ∧ Meets m.subtyping methods calls .fuzzy := by
  simp only [accepts_iff, Meets]
  grind

end Matcher

/-! ## The constraint -/

namespace Context

theorem matchingCalls_ofMethods (ctx : Context) (builtin : Builtin) (methods : List Signature) :
    ctx.matchingCalls (Predicate.ofMethods builtin methods).atom =
      (ctx.view.calls.filter fun call => methods.any fun entry =>
        Matcher.accepts ⟨ctx.subtyping, true⟩ entry call.callee).map Call.site := by
  have given : (methods.map Term.method).filterMap Term.method? = methods := by
    rw [List.filterMap_map]
    exact List.filterMap_some
  simp only [matchingCalls, Predicate.ofMethods, Predicate.plain, given]

theorem evaluate_noCallTo (ctx : Context) (methods : List Signature) :
    (Predicate.ofMethods .noCallTo methods).evaluate ctx =
      .withSites (.ofBool (ctx.matchingCalls (Predicate.ofMethods .noCallTo methods).atom).isEmpty)
        (ctx.matchingCalls (Predicate.ofMethods .noCallTo methods).atom) := rfl

/-- The constraint fails by any call that may be one to the methods. -/
theorem truth_noCallTo_eq_no_iff (ctx : Context) (methods : List Signature) :
    ((Predicate.ofMethods .noCallTo methods).evaluate ctx).truth = .no ↔
      Matcher.Meets ctx.subtyping methods ctx.view.calls .exact ∨
        Matcher.Meets ctx.subtyping methods ctx.view.calls .fuzzy := by
  have met := Matcher.exists_accepts_iff ⟨ctx.subtyping, true⟩ methods ctx.view.calls
  simp only [true_and] at met
  rw [← met, evaluate_noCallTo, matchingCalls_ofMethods]
  simp [Verdict.withSites, Truth.ofBool_eq_no_iff]

theorem truth_noCallTo_ne_unclear (ctx : Context) (methods : List Signature) :
    ((Predicate.ofMethods .noCallTo methods).evaluate ctx).truth ≠ .unclear := by
  rw [evaluate_noCallTo]
  exact Truth.ofBool_ne_unclear _

end Context

/-! ## Bans -/

namespace Rule

/-- The rule with open bans of some methods in the place of its own. -/
def banning (r : Rule) (methods : List Signature) : Rule :=
  { r with bans := methods.map fun m => ⟨m, [], false⟩ }

/-- The rule with open bans of some methods beside its own. -/
def banningToo (r : Rule) (methods : List Signature) : Rule :=
  { r with bans := r.bans ++ (r.banning methods).bans }

/-- The calls have a record of a banned call. -/
def Reports (r : Rule) (m : Matcher) (object : String) (calls : List Call) : Prop :=
  ∃ v ∈ r.violationsOf m object calls, v.kind = .forbiddenCall

instance (r : Rule) (m : Matcher) (object : String) (calls : List Call) :
    Decidable (r.Reports m object calls) :=
  inferInstanceAs (Decidable (∃ v ∈ r.violationsOf m object calls, _))

variable (r : Rule) (m : Matcher) (object : String)

theorem forbidden_advance (current : List String) (call : Call) :
    ((r.advance m object current call).violations.filter fun v => v.kind == .forbiddenCall) =
      (r.banRecord? m object call).toList := by
  have banned : ((r.banRecord? m object call).toList.filter fun v => v.kind == .forbiddenCall) =
      (r.banRecord? m object call).toList := by
    rw [List.filter_eq_self]
    intro v hv
    obtain ⟨b, -, rfl⟩ := Option.map_eq_some_iff.mp (Option.mem_toList.mp hv)
    rfl
  unfold advance
  split
  · rw [List.filter_append, banned]
    split
    · exact List.append_nil _
    · exact List.append_nil _
  · exact banned

/-- Bans are looked at call by call, whatever the states. -/
theorem forbidden_stepsAlong (current : List String) (calls : List Call) :
    (((r.stepsAlong m object current calls).flatMap Step.violations).filter
        fun v => v.kind == .forbiddenCall) =
      calls.filterMap (r.banRecord? m object) := by
  induction calls generalizing current with
  | nil => rfl
  | cons call calls ih =>
    rw [stepsAlong, List.flatMap_cons, List.filter_append, forbidden_advance, ih]
    cases h : r.banRecord? m object call <;> simp [h]

/-- **A banned call is reported exactly if the matcher accepts it as one to a method with an open
ban.** -/
theorem reports_iff (calls : List Call) :
    r.Reports m object calls ↔
      ∃ call ∈ calls, ∃ b ∈ r.reportedBans, m.accepts b.method call.callee = true := by
  have recorded (v : Violation) : v ∈ r.violationsOf m object calls ∧ v.kind = .forbiddenCall ↔
      ∃ call ∈ calls, r.banRecord? m object call = some v := by
    rw [← List.mem_filterMap, ← r.forbidden_stepsAlong m object r.automaton.initial calls,
      List.mem_filter, beq_iff_eq]
    rfl
  have found (call : Call) : (∃ v, r.banRecord? m object call = some v) ↔
      ∃ b ∈ r.reportedBans, m.accepts b.method call.callee = true := by
    rw [← Option.isSome_iff_exists, banRecord?, Option.isSome_map, List.find?_isSome]
  calc r.Reports m object calls
      ↔ ∃ v, ∃ call ∈ calls, r.banRecord? m object call = some v := exists_congr recorded
    _ ↔ ∃ call ∈ calls, ∃ v, r.banRecord? m object call = some v := by
        constructor
        · rintro ⟨v, call, hcall, hv⟩
          exact ⟨call, hcall, v, hv⟩
        · rintro ⟨call, hcall, v, hv⟩
          exact ⟨v, call, hcall, hv⟩
    _ ↔ _ := exists_congr fun call => and_congr_right fun _ => found call

theorem reports_banning_iff (methods : List Signature) (calls : List Call) :
    (r.banning methods).Reports m object calls ↔
      Matcher.Meets m.subtyping methods calls .exact ∨
        m.fuzzy = true ∧ Matcher.Meets m.subtyping methods calls .fuzzy := by
  have open' : ∀ b ∈ (r.banning methods).bans, (!b.silent) = true := by
    intro b hb
    obtain ⟨entry, -, rfl⟩ := List.mem_map.mp hb
    rfl
  rw [reports_iff, ← Matcher.exists_accepts_iff, reportedBans, List.filter_eq_self.mpr open']
  simp [banning]

/-- Bans beside others are reported by themselves. -/
theorem reports_banningToo_iff (methods : List Signature) (calls : List Call) :
    (r.banningToo methods).Reports m object calls ↔
      r.Reports m object calls ∨ (r.banning methods).Reports m object calls := by
  simp only [reports_iff, reportedBans, banningToo, List.filter_append, List.mem_append,
    or_and_right, exists_or, and_or_left]

end Rule

namespace Session

variable {s : Session} {calls : String → List Call}

/-- The report has a banned call of an object exactly if the calls applied to it have one. -/
theorem Chronicle.exists_forbiddenCall_iff (h : s.Chronicle calls) {o : Tracked}
    (ho : o ∈ s.objects) :
    (∃ v ∈ s.report.ofKind .forbiddenCall, v.object = some o.id) ↔
      o.rule.Reports s.matcher o.id o.calls := by
  constructor
  · rintro ⟨v, hv, hobject⟩
    obtain ⟨reported, kind⟩ := List.mem_filter.mp hv
    rw [beq_iff_eq] at kind
    have typestate : v.isTypestate = true := by simp [Violation.isTypestate, kind]
    obtain ⟨o', ho', hv⟩ := (h.mem_report_iff v).mp (List.mem_filter.mpr ⟨reported, typestate⟩)
    have violated := (distinctBy_sublist _ _).subset hv
    have hid : o'.id = o.id :=
      Option.some.inj ((owned_violationsOf s.matcher o' v violated).symm.trans hobject)
    obtain rfl : o' = o := List.inj_on_of_nodup_map h.distinct ho' ho hid
    exact ⟨v, violated, kind⟩
  · rintro ⟨v, hv, kind⟩
    obtain ⟨w, hw, same⟩ := List.mem_map.mp ((mem_map_distinctBy Violation.key v.key _).mpr
      (List.mem_map_of_mem hv))
    have kind' : w.kind = .forbiddenCall := (congrArg Violation.Key.kind same).trans kind
    have reported := (h.mem_report_iff w).mpr ⟨o, ho, hw⟩
    refine ⟨w, List.mem_filter.mpr ⟨(List.mem_filter.mp reported).1, by simp [kind']⟩, ?_⟩
    exact owned_violationsOf s.matcher o w ((distinctBy_sublist _ _).subset hw)

/-- **When `noCallTo` and bans agree.** Take an object after a pass, and some methods. `noCallTo`
of the methods is clear on the object, and it fails if a call that was observed is reported under
a rule with open bans of these methods. It fails by no other call exactly if the session matches
fuzzily, or if some call is exactly to one of the methods, or none is to one on a subtype. Under
a rule with other open bans beside these, what is reported is reported by either. The report has
a banned call of the object exactly if its own rule bans one. -/
theorem noCallTo_of_run {settings : Settings} {rules : Rulebook} {subtyping : Subtyping}
    (h : start settings rules subtyping = .ok s) (ops : List Op) :
    let t := (s.run ops).pass.1
    let m : Matcher := ⟨subtyping, settings.typestate.fuzzyMatching⟩
    ∀ o ∈ t.objects, ∀ methods : List Signature,
      let observed := s.observed o.id ops
      let truth := ((Predicate.ofMethods .noCallTo methods).evaluate (t.context t.store o)).truth
      let reported := (o.rule.banning methods).Reports m o.id observed
      truth ≠ .unclear ∧ (reported → truth = .no) ∧
      ((truth = .no ↔ reported) ↔ settings.typestate.fuzzyMatching = true ∨
        (Matcher.Meets subtyping methods observed .fuzzy →
          Matcher.Meets subtyping methods observed .exact)) ∧
      ((o.rule.banningToo methods).Reports m o.id observed ↔
        o.rule.Reports m o.id observed ∨ reported) ∧
      ((∃ v ∈ t.report.ofKind .forbiddenCall, v.object = some o.id) ↔
        o.rule.Reports m o.id observed) := by
  intro t m o ho methods observed truth reported
  have chronicle : (s.run ops).Chronicle fun id => [] ++ s.observed id ops :=
    (chronicle_start h).run ops
  have frame : t.frame = s.frame := (s.run ops).frame_pass.trans (s.frame_run ops)
  have matcher : t.matcher = m := (matcher_eq_of_frame frame).trans (matcher_start h)
  have subtypes : t.subtyping = subtyping := congrArg Matcher.subtyping matcher
  have applied : o.calls = observed := chronicle.calls_of_mem_pass ho
  have fails : truth = .no ↔ Matcher.Meets subtyping methods observed .exact ∨
      Matcher.Meets subtyping methods observed .fuzzy := by
    rw [← applied, ← subtypes]
    exact Context.truth_noCallTo_eq_no_iff (t.context t.store o) methods
  have banned : reported ↔ Matcher.Meets subtyping methods observed .exact ∨
      settings.typestate.fuzzyMatching = true ∧ Matcher.Meets subtyping methods observed .fuzzy :=
    o.rule.reports_banning_iff m o.id methods observed
  refine ⟨Context.truth_noCallTo_ne_unclear _ methods, ?_, ?_, ?_, ?_⟩
  · rw [fails, banned]
    exact Or.imp_right And.right
  · rw [fails, banned]
    constructor
    · intro agree
      by_cases loose : settings.typestate.fuzzyMatching = true
      · exact .inl loose
      · exact .inr fun fuzzy => (agree.mp (.inr fuzzy)).resolve_right fun on => loose on.1
    · rintro (loose | covered)
      · rw [loose, eq_self, true_and]
      · exact ⟨fun met => .inl (met.elim id covered), Or.imp_right And.right⟩
  · exact o.rule.reports_banningToo_iff m o.id methods observed
  · rw [← matcher, ← applied]
    exact chronicle.pass.exists_forbiddenCall_iff ho

/-! ## A call on a subtype -/

def wipe : Signature := .ofParams "Cipher.wipe" []

/-- A cipher must not be wiped, by a ban and by a constraint. -/
def lastingCipher : Rule :=
  { cipherRule with
    bans := [⟨wipe, [], false⟩]
    constraints := [(Predicate.ofMethods .noCallTo [wipe]).toConstraint] }

/-- Fast ciphers are ciphers. -/
def lastingSession (fuzzy : Bool) : Session :=
  { startedWith { Preset.balanced.settings with typestate := ⟨fuzzy, true, false⟩ } [lastingCipher]
      with subtyping := (Hierarchy.ofList [("FastCipher", "Cipher")]).isSubtype }

/-- A cipher is wiped as a fast cipher. -/
def fastOps : List Op :=
  [.track "c" "c@1" "Cipher", .observe "c" ⟨"1", ⟨"FastCipher", "wipe", []⟩, "FastCipher"⟩]

theorem noCallTo_of_run_fast :
    let s := lastingSession true
    let t := (s.run fastOps).pass.1
    start s.settings s.rules s.subtyping = .ok s ∧ t.objects.map Tracked.id = ["c"] ∧
      ∀ o ∈ t.objects,
        ((Predicate.ofMethods .noCallTo [wipe]).evaluate (t.context t.store o)).truth = .no ∧
          (o.rule.banning [wipe]).Reports s.matcher o.id (s.observed o.id fastOps) := by
  intro s t
  have started : start s.settings s.rules s.subtyping = .ok s := rfl
  have fails : ∀ o ∈ t.objects,
      ((Predicate.ofMethods .noCallTo [wipe]).evaluate (t.context t.store o)).truth = .no := by
    decide
  refine ⟨started, by decide, fun o ho => ⟨fails o ho, ?_⟩⟩
  obtain ⟨-, -, agree, -⟩ := noCallTo_of_run started fastOps o ho [wipe]
  exact (agree.mpr (.inl rfl)).mp (fails o ho)

/-- Without fuzzy matching the constraint fails by a call that no ban reports. -/
theorem unreported_of_exact_matching :
    let s := lastingSession false
    let t := (s.run fastOps).pass.1
    start s.settings s.rules s.subtyping = .ok s ∧
      (∃ o ∈ t.objects,
        ((Predicate.ofMethods .noCallTo [wipe]).evaluate (t.context t.store o)).truth = .no ∧
          ¬ (o.rule.banning [wipe]).Reports s.matcher o.id (s.observed o.id fastOps)) ∧
      t.report.records.map Violation.kind = [.constraint] := by
  intro s t
  exact ⟨rfl, by decide, by decide⟩

end Session

end Misuse
