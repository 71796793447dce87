import Misuse.Proofs.Outset

/-!
# Late answers

A script whose calls come before its first pass may get its answers before that pass
(`hurried`) or between passes. Under patient rules the same facts are published by the last
pass, and all that is visible with early answers is visible with late ones; what is visible
with late ones only was retracted before it was established (`visible_of_late_answers`).
Without these rules it may be otherwise (`visible_of_late_vault`).
-/

namespace Misuse.Session

variable {r s t u f : Session} {calls : String → List Call}

/-! ## Publishing all at once -/

/-- What is still due in the run gives nothing. -/
def Spent (t u : Session) : Prop :=
  ∀ a ∈ t.objects, ∀ o ∈ u.objects, a.id = o.id → ∀ d ∈ o.dueNext u.matcher,
    t.yields (t.waitingVars a.id) t.store a d = []

/-- The run publishes all in one pass, so that nothing given retracts what is visible. -/
structure Prompt (t u : Session) : Prop where
  ends : u.store.log = [] ∨ t.Spent u
  bare : ∀ name, ∀ args ∈ u.store.visible name, ∀ g, t.Gives g → g.negated = true →
    g.name = name → Args.cover g.args args = false

theorem Prompt.perform (h : t.Prompt u) {op : Op} (hop : op ≠ .pass)
    (hobserve : op.isObserve = false) : t.Prompt (u.perform op) := by
  obtain ⟨bound, fresh, hobjects, hfresh⟩ := u.exists_objects_perform hop hobserve
  have store := u.store_perform hop
  refine ⟨?_, by rw [store]; exact h.bare⟩
  rw [store]
  refine h.ends.imp_right fun spent a ha o' ho' hid d hd => ?_
  rw [hobjects] at ho'
  rcases List.mem_append.mp ho' with ho' | ho'
  · obtain ⟨o, ho, rfl⟩ := List.mem_map.mp ho'
    rw [matcher_eq_of_frame (u.frame_perform op)] at hd
    exact spent a ha o ho hid d hd
  · rw [(hfresh o' ho').dueNext] at hd
    cases hd

/-- A pass that knows all the answers publishes all that is given, or nothing. -/
theorem Prompt.pass {answers more : Answers} {direct : String → Binding → Prop} (h : t.Prompt u)
    (course : t.Course u) (ap : Approach t u calls answers more direct) (agrees : u.store.Agrees)
    (hknown : ∀ q values, more.first? q = some values → answers.first? q = some values) :
    t.Prompt u.pass.1 := by
  refine ⟨.inr fun a ha o' ho' hid d hd =>
    course.yields_of_due_pass ap hknown ha ho' hid hd, fun name args hargs g hg hneg hname => ?_⟩
  rw [mem_visible_pass agrees] at hargs
  rcases h.ends with unpublished | spent
  · -- it is the first one to publish, so it publishes the retraction too
    have logged := (course.log_pass_iff ap hknown g).mpr hg
    rw [mem_log_pass, unpublished] at logged
    exact hargs.2 g (logged.resolve_left List.not_mem_nil) hneg hname
  · rcases hargs.1 with before | ⟨e, he, -⟩
    · rw [store_prepare] at before
      exact h.bare name args before g hg hneg hname
    · obtain ⟨o, ho, a, ha, d, due, m, hy⟩ := ap.exists_of_publishes course he
      rw [spent a ha o ho m.id d due] at hy
      cases hy

/-! ## Answers first -/

/-- The answers, and then what is left of the script without its own. -/
def hasten (answers : Answers) (mid : List Op) : List Op :=
  supplies answers ++ mid.filter fun op => !op.isAnswer

theorem hasten_concat_of_isAnswer (answers : Answers) (mid : List Op) {op : Op}
    (h : op.isAnswer = true) : hasten answers (mid ++ [op]) = hasten answers mid := by
  simp [hasten, List.filter_append, h]

theorem hasten_concat (answers : Answers) (mid : List Op) {op : Op} (h : op.isAnswer = false) :
    hasten answers (mid ++ [op]) = hasten answers mid ++ [op] := by
  simp [hasten, List.filter_append, h]

/-- Nothing but the answers is new. -/
theorem eq_supply_or_mem_of_mem_hasten {answers : Answers} {mid : List Op} {op : Op}
    (h : op ∈ hasten answers mid) : (∃ q values, op = .supply q values) ∨ op ∈ mid :=
  (List.mem_append.mp h).imp eq_supply_of_mem_supplies fun h => (List.mem_filter.mp h).1

theorem isObserve_hasten (answers : Answers) {mid : List Op}
    (h : ∀ op ∈ mid, op.isObserve = false) : ∀ op ∈ hasten answers mid, op.isObserve = false := by
  intro op hop
  rcases eq_supply_or_mem_of_mem_hasten hop with ⟨q, values, rfl⟩ | hop
  · rfl
  · exact h op hop

theorem Aside.hasten (answers : Answers) {mid : List Op} (h : Aside f mid) :
    Aside f (hasten answers mid) := by
  intro id b hb
  rcases eq_supply_or_mem_of_mem_hasten hb with ⟨q, values, he⟩ | hb
  · cases he
  · exact h id b hb

theorem answers_hasten (s : Session) (answers : Answers) (mid : List Op) :
    s.answers (hasten answers mid) = answers := by
  rw [hasten, answers_append, answers_supplies, answers_of_not_isAnswer, List.append_nil]
  intro op hop
  simpa using (List.mem_filter.mp hop).2

/-- The same objects are tracked. -/
theorem Within.hasten {mid : List Op} (h : (r.run mid).Within f) (answers : Answers) :
    (r.run (hasten answers mid)).Within f := by
  refine (within_run ?_).trans h
  have none : (supplies answers).filter Op.isTrack = [] := by
    refine List.filter_eq_nil_iff.mpr fun op hop => ?_
    obtain ⟨q, values, rfl⟩ := eq_supply_of_mem_supplies hop
    exact Bool.false_ne_true
  rw [Session.hasten, List.filter_append, none, List.nil_append, List.filter_filter]
  refine List.filter_congr fun op _ => ?_
  cases op <;> rfl

namespace Outset

variable {base all : Answers} (h : Outset r f calls base all)
include h

/-- By a pass that knows all the answers, all that is given is published. -/
theorem log_run_pass_iff {ops : List Op} (hops : ∀ op ∈ ops, op.isObserve = false)
    (hw : (r.run ops).Within f) (haside : Aside f ops) (hall : r.answers ops = all) (fact : Fact) :
    fact ∈ (r.run ops).pass.1.store.log ↔ (r.answered all).Gives fact := by
  subst hall
  have known : ∀ q values, (base ++ r.answers ops).first? q = some values →
      (base ++ r.answers ops).first? q = some values := fun _ _ => id
  have course := h.course_run hops hw haside known
  exact course.log_pass_iff (h.approach hw haside known course) known fact

variable {mid : List Op} (hmid : ∀ op ∈ mid, op.isObserve = false) (hw : (r.run mid).Within f)
  (haside : Aside f mid)
include hmid hw haside

theorem log_hasten_pass_iff (fact : Fact) :
    fact ∈ (r.run (hasten all mid)).pass.1.store.log ↔ (r.answered all).Gives fact :=
  h.log_run_pass_iff (isObserve_hasten all hmid) (hw.hasten all) (haside.hasten all)
    (r.answers_hasten all mid) fact

theorem prompt_pass (prompt : (r.answered all).Prompt (r.run (hasten all mid))) :
    (r.answered all).Prompt (r.run (hasten all mid)).pass.1 := by
  have known : ∀ q values, (base ++ r.answers (hasten all mid)).first? q = some values →
      (base ++ all).first? q = some values := by
    rw [answers_hasten]
    exact fun _ _ => id
  have course :=
    h.course_run (isObserve_hasten all hmid) (hw.hasten all) (haside.hasten all) known
  refine prompt.pass course (h.approach (hw.hasten all) (haside.hasten all) known course)
    (agrees_run h.agrees _) ?_
  rw [answers_hasten]
  exact fun _ _ => id

/-- **With the answers first, all is published at once.** -/
theorem prompt_run : (r.answered all).Prompt (r.run (hasten all mid)) := by
  induction mid using List.reverseRecOn with
  | nil =>
    have store : (r.run (hasten all [])).store = .empty := by
      rw [hasten, List.filter_nil, List.append_nil, run_supplies, store_supplyAll, h.store]
    refine ⟨.inl (by rw [store]; rfl), fun name args hargs => ?_⟩
    rw [store, FactStore.agrees_empty.standing] at hargs
    cases hargs
  | append_singleton mid op ih =>
    obtain ⟨earlier, hop⟩ := List.forall_mem_append.mp hmid
    have within := hw.of_concat
    have aside : Aside f mid := fun id b hb => haside id b (List.mem_append_left _ hb)
    have prompt := ih earlier within aside
    cases hanswer : op.isAnswer with
    | true =>
      rw [hasten_concat_of_isAnswer all mid hanswer]
      exact prompt
    | false =>
      rw [hasten_concat all mid hanswer, run_concat]
      by_cases pass : op = .pass
      · subst pass
        exact h.prompt_pass earlier within aside prompt
      · exact prompt.perform pass (hop op (List.mem_singleton_self op))

end Outset

/-! ## Early and late -/

/-- What is given as a retraction comes from an effect that retracts. -/
theorem Outset.exists_retracted_of_gives {base all : Answers} (h : Outset r f calls base all)
    {fact : Fact} (hf : (r.answered all).Gives fact) (hneg : fact.negated = true) :
    ∃ o ∈ f.objects, ∃ e ∈ o.rule.retracted, e.predicate.atom.name = fact.name := by
  obtain ⟨a, ha, view, cap, d, hmem⟩ := h.mem_factsOf_of_gives hf
  obtain ⟨e, he, hname, hsign⟩ := Rule.negated_of_mem_factsOf hmem
  exact ⟨a, ha, e, List.mem_filter.mpr ⟨List.mem_of_getElem? he, hsign.symm.trans hneg⟩, hname.symm⟩

/-- **Early and late answers lead to the same facts**, and what is visible with early ones is
visible with late ones. -/
theorem Outset.late {base : Answers} {mid : List Op} (h : Outset r f calls base (r.answers mid))
    (hmid : ∀ op ∈ mid, op.isObserve = false) (hw : (r.run mid).Within f) (haside : Aside f mid) :
    let early := (r.run (hasten (r.answers mid) mid)).pass.1.store
    let late := (r.run mid).pass.1.store
    (∀ fact, fact ∈ early.log ↔ fact ∈ late.log) ∧
      ∀ name,
        (∀ args ∈ early.visible name, args ∈ late.visible name) ∧
        (∀ args ∈ late.visible name, args ∈ early.visible name ∨
          ∃ g ∈ late.log, g.negated = true ∧ g.name = name ∧ Args.cover g.args args = true) ∧
        ((∀ o ∈ f.objects, ∀ e ∈ o.rule.retracted, e.predicate.atom.name ≠ name) →
          early.visible name = late.visible name) := by
  intro early late
  have published : ∀ fact, fact ∈ early.log ↔ (r.answered (r.answers mid)).Gives fact :=
    h.log_hasten_pass_iff hmid hw haside
  have published' : ∀ fact, fact ∈ late.log ↔ (r.answered (r.answers mid)).Gives fact :=
    h.log_run_pass_iff hmid hw haside rfl
  have same : ∀ fact, fact ∈ early.log ↔ fact ∈ late.log := fun fact =>
    (published fact).trans (published' fact).symm
  have agrees : early.Agrees := agrees_pass (agrees_run h.agrees _)
  have agrees' : late.Agrees := agrees_pass (agrees_run h.agrees _)
  have kept : ∀ name, ∀ args ∈ early.visible name, args ∈ late.visible name := by
    intro name args hargs
    refine agrees.mem_visible_of_uncovered agrees' (fun g => (same g).mp) hargs ?_
    have prompt := h.prompt_pass hmid hw haside (h.prompt_run hmid hw haside)
    exact fun g hg => prompt.bare name args hargs g ((published' g).mp hg)
  refine ⟨same, fun name => ⟨kept name, fun args hargs => ?_, fun unretracted => ?_⟩⟩
  · by_cases covered : ∃ g ∈ late.log, g.negated = true ∧ g.name = name ∧
        Args.cover g.args args = true
    · exact .inr covered
    · refine .inl (agrees'.mem_visible_of_uncovered agrees (fun g => (same g).mpr) hargs ?_)
      exact fun g hg hneg hname =>
        Bool.eq_false_iff.mpr fun hc => covered ⟨g, (same g).mp hg, hneg, hname, hc⟩
  · refine Sorted.eq_of_mem_iff (FactStore.increasing_visible _ _)
      (FactStore.increasing_visible _ _) fun args => ⟨kept name args, fun hargs => ?_⟩
    refine agrees'.mem_visible_of_uncovered agrees (fun g => (same g).mpr) hargs ?_
    intro g hg hneg hname
    obtain ⟨o, ho, e, he, heq⟩ := h.exists_retracted_of_gives ((published g).mp hg) hneg
    exact absurd (heq.trans hname) (unretracted o ho e he)

/-- A script that starts with its calls, before any pass. -/
theorem outset_run {settings : Settings} {rules : Rulebook} {subtyping : Subtyping}
    (h : start settings rules subtyping = .ok s) {ops : List Op} (hops : ∀ op ∈ ops, op ≠ .pass)
    (hw : (s.run ops).Within f) (hf : f.Patient) (all : Answers) :
    Outset (s.run ops) f (fun id => [] ++ s.observed id ops) (s.answers ops) all where
  chronicle := (chronicle_start h).run ops
  ledger := ((ledger_start h).run (chronicle_start h) ops).holds
  keyed := keyed_run (unasked_start h).keyed ops
  store := (store_run_of_ne_pass hops).trans (store_start h)
  within := hw
  patient := hf

/-- The script with the answers of its second part moved to the end of the first one. -/
def hurried (s : Session) (ops mid : List Op) : List Op :=
  ops ++ hasten ((s.run ops).answers mid) mid

/-- **When answers may come late.** Take a script that observes its calls before its first
pass, and binds directly, from then on, only what no effect of the object mentions. Guards of
effects look up no name that effects establish, and read only variables that the effect
mentions. Move the answers that come after the first part of the script to the end of it.
After a last pass the same facts are published. What is visible with the answers moved is
visible without, and what else is visible is covered by a retraction that is published too. So
the same is visible of every name that no effect retracts. -/
theorem visible_of_late_answers {settings : Settings} {rules : Rulebook} {subtyping : Subtyping}
    (h : start settings rules subtyping = .ok s) {ops mid : List Op}
    (hops : ∀ op ∈ ops, op ≠ .pass) (hmid : ∀ op ∈ mid, op.isObserve = false)
    (hpatient : (s.run (ops ++ mid)).Patient) (haside : Aside (s.run (ops ++ mid)) mid) :
    let early := (s.run (s.hurried ops mid)).pass.1.store
    let late := (s.run (ops ++ mid)).pass.1.store
    (∀ fact, fact ∈ early.log ↔ fact ∈ late.log) ∧
      ∀ name,
        (∀ args ∈ early.visible name, args ∈ late.visible name) ∧
        (∀ args ∈ late.visible name, args ∈ early.visible name ∨
          ∃ g ∈ late.log, g.negated = true ∧ g.name = name ∧ Args.cover g.args args = true) ∧
        ((∀ o ∈ (s.run (ops ++ mid)).objects, ∀ e ∈ o.rule.retracted,
            e.predicate.atom.name ≠ name) →
          early.visible name = late.visible name) := by
  simp only [hurried, run_append] at hpatient haside ⊢
  have outset := outset_run h hops ((s.run ops).keeps_run mid).within hpatient
    ((s.run ops).answers mid)
  exact outset.late hmid (within_of_roll rfl) haside

/-! ## A vault -/

/-- A key is stored for an algorithm, and may be destroyed. -/
def vaultRule (effects : List Effect) : Rule :=
  { Rule.empty "Vault" with
    declarations := [⟨"key", "Key"⟩, ⟨"alg", "String"⟩]
    automaton :=
      { states := [⟨"new", false⟩, ⟨"stored", true⟩, ⟨"destroyed", true⟩]
        initial := ["new"]
        transitions :=
          [⟨"new", "stored", [.ofParams "Vault.store" [⟨"key", "Key"⟩, ⟨"alg", "String"⟩]]⟩,
           ⟨"stored", "destroyed", [.ofParams "Vault.destroy" []]⟩] }
    effects }

def vaultSession (effects : List Effect) : Session :=
  { guardedSession with rules := Rulebook.empty.insert false (vaultRule effects) }

/-- What is stored is held, if the guard is true. -/
def onStore (name : String) (term : Term) (guard : Option Constraint) : Effect :=
  ⟨⟨⟨name, [term], false⟩, guard⟩, some ["stored"]⟩

def forAes : Constraint := .member (.whole "alg" "String") ["AES"]

def heldKey : Effect := onStore "held" (.var (.whole "key" "Key")) none

/-- A vault that is destroyed holds no key. -/
def noneHeld : Effect := ⟨⟨⟨"held", [.wildcard], true⟩, none⟩, some ["destroyed"]⟩

def sealedKey : Effect := onStore "sealed" (.var (.whole "key" "Key")) (some forAes)

def storeOps : List Op :=
  [.track "v" "v@1" "Vault", .observe "v" ⟨"1", ⟨"Vault", "store", ["Key", "String"]⟩, "Vault"⟩]

def destroyOp : Op := .observe "v" ⟨"2", ⟨"Vault", "destroy", []⟩, "Vault"⟩

def answerKey : Op := .supply ⟨"v", "1", "key", .argument 0⟩ [⟨.object "k@1", none⟩]

def answerAlgorithm (name : String) : Op :=
  .supply ⟨"v", "1", "alg", .argument 1⟩ [⟨.constant (.text name), none⟩]

/-- The answers come one by one between passes, and the key is sealed as it is with early
answers. -/
theorem visible_of_late_answers_vault :
    let s := vaultSession [heldKey, noneHeld, sealedKey]
    let ops := storeOps ++ [destroyOp]
    let mid : List Op := [.pass, answerAlgorithm "AES", .pass, answerKey]
    let early := (s.run (s.hurried ops mid)).pass.1.store
    let late := (s.run (ops ++ mid)).pass.1.store
    start s.settings s.rules s.subtyping = .ok s ∧
      (∀ op ∈ ops, op ≠ .pass) ∧ (∀ op ∈ mid, op.isObserve = false) ∧
      (s.run (ops ++ mid)).Patient ∧ Aside (s.run (ops ++ mid)) mid ∧
      early.visible "sealed" = late.visible "sealed" ∧
      late.visible "sealed" = [[.object "k@1"]] := by
  intro s ops mid early late
  have started : start s.settings s.rules s.subtyping = .ok s := rfl
  have first : ∀ op ∈ ops, op ≠ .pass := by simp [ops, storeOps, destroyOp]
  have observed : ∀ op ∈ mid, op.isObserve = false := by decide
  have patient : (s.run (ops ++ mid)).Patient := by
    refine ⟨?_, ?_⟩
    · unfold Apart
      decide +kernel
    · decide +kernel
  have aside : Aside (s.run (ops ++ mid)) mid := by
    simp [Aside, mid, answerAlgorithm, answerKey]
  have unretracted : ∀ o ∈ (s.run (ops ++ mid)).objects, ∀ e ∈ o.rule.retracted,
      e.predicate.atom.name ≠ "sealed" := by
    decide +kernel
  refine ⟨started, first, observed, patient, aside, ?_, by decide +kernel⟩
  exact ((visible_of_late_answers started first observed patient aside).2 "sealed").2.2 unretracted

def keyInUse : Effect := onStore "inUse" .self (some (.atom ⟨"held", [.wildcard], false⟩))

/-- Its guard is about the algorithm too, but within the guard of an atom. -/
def checkedKey : Effect :=
  onStore "checked" .self
    (some (.guarded ⟨"callTo", [.method (.ofParams "Vault.destroy" [])], false⟩ forAes))

/-- In four ways the time of an answer decides what is visible: it comes after a retraction of
what it establishes, after a guard has looked that up, after a guard was judged that reads the
answer, and after the place of the answer was taken. -/
theorem visible_of_late_vault :
    let s := vaultSession [heldKey, noneHeld, keyInUse, checkedKey]
    let early := fun ops mid => (s.run (s.hurried ops mid)).pass.1.store.visible
    let late := fun ops mid => (s.run (ops ++ mid)).pass.1.store.visible
    let taken : Op := .bind "v" ⟨"1", "key", .argument 0, [⟨.object "j@1", none⟩]⟩
    start s.settings s.rules s.subtyping = .ok s ∧ s.rules.rejected = [] ∧
      (early (storeOps ++ [destroyOp]) [.pass, answerKey] "held" = [] ∧
        late (storeOps ++ [destroyOp]) [.pass, answerKey] "held" = [[.object "k@1"]]) ∧
      (early storeOps [.pass, answerKey] "inUse" = [[.object "v@1"]] ∧
        late storeOps [.pass, answerKey] "inUse" = []) ∧
      (early storeOps [.pass, answerAlgorithm "DES"] "checked" = [[.object "v@1"]] ∧
        late storeOps [.pass, answerAlgorithm "DES"] "checked" = []) ∧
      (early storeOps [.pass, taken, answerKey] "held" = [[.object "k@1"]] ∧
        late storeOps [.pass, taken, answerKey] "held" = [[.object "j@1"]]) := by
  intro s early late taken
  exact ⟨rfl, by decide +kernel⟩

end Misuse.Session
