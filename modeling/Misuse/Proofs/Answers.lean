import Misuse.Proofs.Ledger
import Misuse.Proofs.Repetition

/-!
# From answers to bindings

Objects are never lost in a run, and what is bound to one stays bound (`keeps_run`). After a
pass an object has, at the place of every query of its calls, the first answer if there is
one and nothing else (`bindings_of_run`).
-/

namespace Misuse

/-- The same object later on: its bindings are only appended to. -/
structure Tracked.Grown (o o' : Tracked) : Prop where
  id : o'.id = o.id
  self : o'.self = o.self
  rule : o'.rule = o.rule
  bindings : o.bindings <+: o'.bindings

namespace Tracked

theorem grown_self (o : Tracked) : o.Grown o := ⟨rfl, rfl, rfl, List.prefix_rfl⟩

theorem Grown.trans {a b c : Tracked} (h : a.Grown b) (h' : b.Grown c) : a.Grown c :=
  ⟨h'.id.trans h.id, h'.self.trans h.self, h'.rule.trans h.rule, h.bindings.trans h'.bindings⟩

theorem grown_bind (o : Tracked) (b : Binding) : o.Grown (o.bind b) := by
  have grows := o.prefix_bind b
  rw [bind_eq] at grows ⊢
  exact ⟨rfl, rfl, rfl, grows⟩

theorem grown_receive (o : Tracked) (ds : List (Delivery String)) : o.Grown (o.receive ds) := by
  have grows := prefix_receive ds o
  rw [receive_eq] at grows ⊢
  exact ⟨rfl, rfl, rfl, grows⟩

end Tracked

namespace Session

variable {s : Session}

/-! ## Growth -/

/-- Every object of the one session is in the other, with at least its bindings. -/
def Keeps (s t : Session) : Prop := ∀ o ∈ s.objects, ∃ o' ∈ t.objects, o.Grown o'

theorem keeps_of_subset {t : Session} (h : ∀ o ∈ s.objects, o ∈ t.objects) : s.Keeps t :=
  fun o ho => ⟨o, h o ho, o.grown_self⟩

theorem Keeps.trans {t u : Session} (h : s.Keeps t) (h' : t.Keeps u) : s.Keeps u := by
  intro o ho
  obtain ⟨a, ha, grown⟩ := h o ho
  obtain ⟨o', ho', grown'⟩ := h' a ha
  exact ⟨o', ho', grown.trans grown'⟩

theorem keeps_update (s : Session) (id : String) {f : Tracked → Tracked}
    (hf : ∀ o : Tracked, o.Grown (f o)) : s.Keeps (s.update id f) := by
  intro o ho
  refine ⟨_, List.mem_map_of_mem ho, ?_⟩
  split
  · exact hf o
  · exact o.grown_self

theorem grown_advanced (s : Session) (o : Tracked) : o.Grown (s.advanced o).object := by
  have grows := Tracked.prefix_receive s.inbox o
  rw [← bindings_advanced] at grows
  rw [Session.advanced, Tracked.applyQueued_eq, Tracked.receive_eq] at grows ⊢
  exact ⟨rfl, rfl, rfl, grows⟩

theorem keeps_pass (s : Session) : s.Keeps s.pass.1 := by
  intro o ho
  have hm : ((s.advanced o).object.receive (s.newQueries.flatMap s.registry.answersTo)).settled ∈
      s.pass.1.objects.map Tracked.settled := by
    rw [settled_pass]
    exact List.mem_map_of_mem ho
  obtain ⟨o', ho', he⟩ := List.mem_map.mp hm
  refine ⟨o', ho', ?_⟩
  have field {β : Type} (f : Tracked → β) : f o'.settled = f _ := congrArg f he
  have received := (s.grown_advanced o).trans
    ((s.advanced o).object.grown_receive (s.newQueries.flatMap s.registry.answersTo))
  have bindings : o'.bindings = _ := field Tracked.bindings
  exact ⟨(field Tracked.id).trans received.id, (field Tracked.self).trans received.self,
    (field Tracked.rule).trans received.rule, bindings ▸ received.bindings⟩

theorem keeps_prepare (h : (s.objects.map Tracked.id).Nodup) : s.Keeps s.prepare := by
  intro o ho
  refine ⟨s.readied o, ?_, ?_⟩
  · rw [objects_prepare h]
    exact List.mem_map_of_mem ho
  · exact (s.grown_advanced o).trans ((s.advanced o).object.grown_receive _)

/-- **No operation takes anything from an object.** -/
theorem keeps_perform (s : Session) (op : Op) : s.Keeps (s.perform op) := by
  cases op with
  | track id self className =>
    simp only [perform, track]
    split
    · exact keeps_of_subset fun _ ho => ho
    · split
      · exact keeps_of_subset fun _ ho => ho
      · exact keeps_of_subset fun _ ho => List.mem_append_left _ ho
  | observe id call =>
    simp only [perform, observe]
    split
    · exact s.keeps_update id fun o => ⟨rfl, rfl, rfl, List.prefix_rfl⟩
    · exact keeps_of_subset fun _ ho => ho
  | bind id b =>
    simp only [perform, Session.bind]
    split
    · exact keeps_of_subset fun _ ho => ho
    · exact s.keeps_update id fun o => o.grown_bind b
  | supply q values => exact keeps_of_subset fun _ ho => ho
  | resolveAll answer? =>
    obtain ⟨registry, inbox, hr⟩ := s.resolveAll_eq answer?
    simp only [perform, hr]
    exact keeps_of_subset fun _ ho => ho
  | pass => exact s.keeps_pass

theorem keeps_run (s : Session) (ops : List Op) : s.Keeps (s.run ops) := by
  induction ops generalizing s with
  | nil => exact keeps_of_subset fun _ ho => ho
  | cons op ops ih =>
    exact (s.keeps_perform op).trans (ih (s.perform op))

/-- What an object has held at some point of a run, it holds. -/
theorem Keeps.mem_bindings_of_holds {t : Session} (h : s.Keeps t)
    (hdistinct : (t.objects.map Tracked.id).Nodup) {o : Tracked} (ho : o ∈ t.objects)
    {b : Binding} (hb : s.Holds o.id b) : b ∈ o.bindings := by
  obtain ⟨a, ha, hid, hb⟩ := hb
  obtain ⟨o', ho', grown⟩ := h a ha
  have : o' = o := List.inj_on_of_nodup_map hdistinct ho' ho (grown.id.trans hid)
  exact this ▸ grown.bindings.subset hb

/-! ## Queries of the observed calls -/

/-- What an object holds at the place of one of its queries. -/
theorem Ledger.filter_bindings {answers : Answers} {direct : String → Binding → Prop}
    (h : s.Ledger answers direct) (hinbox : s.inbox = []) {o : Tracked} (ho : o ∈ s.objects)
    {q : Query} (hq : q ∈ o.emitted s.matcher)
    (hfree : ∀ c ∈ o.bindings, direct o.id c → c.place ≠ q.place) :
    o.bindings.filter q.answeredBy = ((answers.first? q).map q.bind).toList := by
  have same : o.bindings.filter q.answeredBy =
      o.bindings.filter fun c => decide (c.place = q.place) := by
    refine List.filter_congr fun c _ => ?_
    rw [Bool.eq_iff_iff, q.answeredBy_eq_true_iff, decide_eq_true_iff]
  rw [same]
  cases hfirst : answers.first? q with
  | some values =>
    have hb : q.bind values ∈ o.bindings :=
      (h.mem_bindings_iff hinbox ho (b := q.bind values) hfree).mpr ⟨q, hq, values, hfirst, rfl⟩
    exact (h.objects o ho).placed.filter_place (q.bind values) hb
  | none =>
    refine List.filter_eq_nil_iff.mpr fun c hc => ?_
    rw [decide_eq_true_iff]
    intro hplace
    obtain ⟨p, hp, values, hk, rfl⟩ := (h.mem_bindings_iff hinbox ho (b := c) fun d hd hdirect =>
      hplace ▸ hfree d hd hdirect).mp hc
    have hpq : p = q := Query.ext_place
      ((Tracked.object_of_mem_emitted hp).trans (Tracked.object_of_mem_emitted hq).symm) hplace
    rw [hpq, hfirst] at hk
    cases hk

theorem inbox_pass (s : Session) : s.pass.1.inbox = [] := s.settled_of_pass.inbox

/-- After a pass an object has asked the queries of all its calls. -/
theorem Chronicle.emitted_pass {calls : String → List Call} (c : s.Chronicle calls)
    {o : Tracked} (ho : o ∈ s.pass.1.objects) (m : Matcher) :
    o.emitted m =
      (o.rule.stepsAlong m o.id o.rule.automaton.initial (calls o.id)).flatMap Step.queries := by
  rw [Tracked.emitted, c.calls_of_mem_pass ho]

/-- **No binding is lost or duplicated.** Take any run and then a pass. At the place of a
query that the calls of an object ask, unless a binding was put there directly, the object
holds the first answer that was given to the query, and nothing if there was none. Whatever
comes after a run, objects keep their bindings, and append to them. No object holds two
bindings of one place. -/
theorem bindings_of_run {settings : Settings} {rules : Rulebook} {subtyping : Subtyping}
    (h : start settings rules subtyping = .ok s) (ops : List Op) :
    let m : Matcher := ⟨subtyping, settings.typestate.fuzzyMatching⟩
    (∀ o ∈ (s.run ops).pass.1.objects,
      ∀ step ∈ o.rule.stepsAlong m o.id o.rule.automaton.initial (s.observed o.id ops),
      ∀ q ∈ step.queries, (∀ b, Op.bind o.id b ∈ ops → q.answeredBy b = false) →
        o.bindings.filter q.answeredBy = (((s.answers ops).first? q).map q.bind).toList) ∧
    (∀ more, ∀ o ∈ (s.run ops).objects, ∃ o' ∈ (s.run (ops ++ more)).objects,
      o'.id = o.id ∧ o.bindings <+: o'.bindings) ∧
    ∀ o ∈ (s.run ops).objects, o.bindings.Pairwise fun b c => b.samePlace c = false := by
  intro m
  have chronicle : (s.run ops).Chronicle fun id => [] ++ s.observed id ops :=
    (chronicle_start h).run ops
  have ledger := (ledger_start h).run (chronicle_start h) ops
  have matcher : (s.run ops).pass.1.matcher = m :=
    (matcher_eq_of_frame (((s.run ops).frame_pass).trans (s.frame_run ops))).trans
      (matcher_start h)
  refine ⟨?_, ?_, ?_⟩
  · intro o ho step hstep q hq hfree
    have emitted : q ∈ o.emitted (s.run ops).pass.1.matcher := by
      rw [matcher, chronicle.emitted_pass ho]
      exact List.mem_flatMap.mpr ⟨step, hstep, hq⟩
    refine (ledger.pass chronicle).filter_bindings (inbox_pass _) ho emitted ?_
    rintro c - (hf | hd) hplace
    · exact hf
    · have := hfree c hd
      rw [(q.answeredBy_eq_true_iff c).mpr hplace] at this
      cases this
  · intro more o ho
    obtain ⟨o', ho', grown⟩ := (s.run ops).keeps_run more o ho
    rw [run_append]
    exact ⟨o', ho', grown.id, grown.bindings⟩
  · intro o ho
    refine (List.pairwise_map.mp (ledger.objects o ho).placed).imp fun {b c} hne => ?_
    rw [Bool.eq_false_iff, ne_eq, Binding.samePlace_eq_true_iff]
    exact hne

/-! ## A cipher that is set up twice -/

/-- A cipher has to be for AES, whenever it is told its algorithm. -/
def resetRule : Rule :=
  { Rule.empty "Cipher" with
    declarations := [⟨"alg", "String"⟩]
    automaton :=
      { states := [⟨"new", false⟩, ⟨"ready", true⟩]
        initial := ["new"]
        transitions :=
          [⟨"new", "ready", [.ofParams "Cipher.init" [⟨"alg", "String"⟩]]⟩,
           ⟨"ready", "ready", [.ofParams "Cipher.reset" [⟨"alg", "String"⟩]]⟩] }
    constraints := [.member (.whole "alg" "String") ["AES"]] }

def resetSession : Session :=
  { guardedSession with rules := Rulebook.empty.insert false resetRule }

/-- The algorithm is given at two sites. -/
def algorithmAt (site : String) : Query := ⟨"c", site, "alg", .argument 0⟩

def initOps : List Op :=
  [.track "c" "c@1" "Cipher", .observe "c" ⟨"1", ⟨"Cipher", "init", ["String"]⟩, "Cipher"⟩,
   .supply (algorithmAt "1") [⟨.constant (.text "AES"), none⟩]]

def resetOp : Op := .observe "c" ⟨"2", ⟨"Cipher", "reset", ["String"]⟩, "Cipher"⟩

/-- One query is answered before it is asked, and again later; the other one is asked twice
before it is answered. -/
def resetOps : List Op :=
  initOps ++ [.pass, .supply (algorithmAt "1") [⟨.constant (.text "DES"), none⟩],
    resetOp, .pass, resetOp, .supply (algorithmAt "2") [.unresolved]]

/-- Both first answers have arrived, and the second ones nowhere. -/
theorem bindings_of_run_reset :
    let m : Matcher := ⟨resetSession.subtyping, resetSession.settings.typestate.fuzzyMatching⟩
    let t := (resetSession.run resetOps).pass.1
    start resetSession.settings resetSession.rules resetSession.subtyping = .ok resetSession ∧
      (∀ o ∈ t.objects,
        ∀ step ∈ o.rule.stepsAlong m o.id o.rule.automaton.initial
          (resetSession.observed o.id resetOps),
        ∀ q ∈ step.queries, o.bindings.filter q.answeredBy =
          (((resetSession.answers resetOps).first? q).map q.bind).toList) ∧
      (t.objects.flatMap fun o => o.rule.stepsAlong m o.id o.rule.automaton.initial
          (resetSession.observed o.id resetOps)).map Step.queries =
        [[algorithmAt "1"], [algorithmAt "2"], [algorithmAt "2"]] ∧
      t.objects.map Tracked.bindings =
        [[⟨"1", "alg", .argument 0, [⟨.constant (.text "AES"), none⟩]⟩,
          ⟨"2", "alg", .argument 0, [.unresolved]⟩]] := by
  intro m t
  have started : start resetSession.settings resetSession.rules resetSession.subtyping =
      .ok resetSession := rfl
  have free : ∀ id b, Op.bind id b ∉ resetOps := by simp [resetOps, initOps, resetOp]
  refine ⟨started, fun o ho step hstep q hq => ?_, by decide, by decide⟩
  exact (bindings_of_run started resetOps).1 o ho step hstep q hq fun b hb =>
    absurd hb (free o.id b)

end Session

end Misuse
