import Misuse.Proofs.Answers
import Misuse.Proofs.Reads
import Misuse.Proofs.Setup

/-!
# After a settled pass

A settled pass has no effect left, so with nothing but answers and passes after it no fact is
published any more (`Rests.pass`). Answers may still bind variables at further sites. What is
judged of an object depends on the variables its constraints read, so the report is final if
no query waits for one of those (`final_of_settled`), and need not be otherwise
(`report_of_settled_reset`).
-/

namespace Misuse

/-! ## Nothing due -/

/-- An object without its bindings and pending constraints. -/
def Tracked.unbound (o : Tracked) : Tracked := { o with bindings := [], pending := [] }

theorem Tracked.unbound_receive (o : Tracked) (ds : List (Delivery String)) :
    (o.receive ds).unbound = o.unbound := by
  rw [receive_eq]
  rfl

namespace Session

theorem total_eq_zero_iff (s : Session) (f : Tracked → Nat) :
    s.total f = 0 ↔ ∀ o ∈ s.objects, f o = 0 := by
  unfold total
  induction s.objects with
  | nil => simp
  | cons o os ih => simp [ih]

/-- A settled pass leaves no effect due. -/
theorem due_of_isSettled {s : Session} (h : s.pass.2.isSettled = true) :
    ∀ o ∈ s.pass.1.objects, o.due = [] := by
  have deferred : s.pass.1.total (fun o => o.due.length) = 0 :=
    beq_iff_eq.mp (Bool.and_eq_true_iff.mp h).2
  intro o ho
  exact List.length_eq_zero_iff.mp ((total_eq_zero_iff _ _).mp deferred o ho)

/-- Without due effects nothing is published. -/
theorem publish_of_due {s : Session} (h : ∀ o ∈ s.objects, o.due = []) : s.publish.1 = s := by
  have objects : ∀ (os done : List Tracked) (p : Publication), (∀ o ∈ os, o.due = []) →
      (os.foldl s.publishObject (done, p)).1 = done ++ os := by
    intro os
    induction os with
    | nil => simp
    | cons o os ih =>
      intro done p hos
      obtain ⟨ho, hos⟩ := List.forall_mem_cons.mp hos
      have own : { o with due := (s.publishOwn p o).kept } = o := by
        rw [publishOwn, ho, List.foldl_nil, ← ho]
      rw [List.foldl_cons, publishObject_eq, own, ih _ _ hos, List.append_assoc]
      rfl
  have idle : s.established = [] ∧ s.withdrawn = [] :=
    s.publication_idle_iff.mpr fun o ho t ht => absurd (h o ho ▸ ht) List.not_mem_nil
  have unchanged : s.publish.1.objects = s.objects := objects s.objects [] ⟨s.store, 0, [], []⟩ h
  rw [publish_fst, idle.1, idle.2, unchanged]
  rfl

/-- A session that has taken in its inbox for the next pass. -/
def received (s : Session) : Session :=
  { s with
    passes := s.passes + 1
    inbox := []
    objects := s.objects.map (Tracked.receive s.inbox) }

/-- Without calls and due effects, a pass binds and judges. -/
theorem pass_of_due {s : Session} (hq : ∀ o ∈ s.objects, o.queued = [])
    (hd : ∀ o ∈ s.objects, o.due = []) : s.pass.1 = s.received.judge := by
  have queued : ∀ o ∈ s.received.objects, o.queued = [] := by
    intro o ho
    obtain ⟨a, ha, rfl⟩ := List.mem_map.mp ho
    rw [Tracked.queued_receive]
    exact hq a ha
  have due : ∀ o ∈ s.received.objects, o.due = [] := by
    intro o ho
    obtain ⟨a, ha, rfl⟩ := List.mem_map.mp ho
    rw [Tracked.receive_eq]
    exact hd a ha
  have drained : s.counted.drain.1 = s.received := s.counted.drain_fst
  have prepared : s.prepare = s.received := by
    have calls := applyCalls_of_queued queued
    have late : s.received.drain = (s.received, 0) := drain_of_inbox rfl
    have : s.prepare =
        (s.counted.drain.1.applyCalls.1.askAll s.counted.drain.1.applyCalls.2).1.drain.1 := rfl
    rw [this, drained, calls]
    exact congrArg Prod.fst late
  rw [pass_fst, prepared, publish_of_due due]

/-! ## Sessions at rest -/

theorem exists_perform_of_isAnswer (s : Session) {op : Op} (h : op.isAnswer = true) :
    ∃ registry inbox, s.perform op = { s with registry, inbox } := by
  cases op with
  | supply q values => exact ⟨_, _, rfl⟩
  | resolveAll answer? => exact s.resolveAll_eq answer?
  | _ => cases h

/-- `u` comes from `t` by answers and passes that have only bound variables. -/
structure Rests (t u : Session) : Prop where
  frame : u.frame = t.frame
  store : u.store = t.store
  permanent : u.permanent = t.permanent
  objects : u.objects.map Tracked.unbound = t.objects.map Tracked.unbound

variable {t u : Session}

theorem rests_self (t : Session) : t.Rests t := ⟨rfl, rfl, rfl, rfl⟩

theorem Rests.exists_mem (h : t.Rests u) {o' : Tracked} (ho : o' ∈ u.objects) :
    ∃ o ∈ t.objects, o.unbound = o'.unbound := by
  have : o'.unbound ∈ t.objects.map Tracked.unbound := h.objects ▸ List.mem_map_of_mem ho
  exact List.mem_map.mp this

theorem Rests.idle (h : t.Rests u) (hq : ∀ o ∈ t.objects, o.queued = [])
    (hd : ∀ o ∈ t.objects, o.due = []) : ∀ o ∈ u.objects, o.queued = [] ∧ o.due = [] := by
  intro o' ho'
  obtain ⟨o, ho, he⟩ := h.exists_mem ho'
  have field {β : Type} (f : Tracked → β) : f o.unbound = f o'.unbound := congrArg f he
  have queued : o.queued = o'.queued := field Tracked.queued
  have due : o.due = o'.due := field Tracked.due
  exact ⟨queued ▸ hq o ho, due ▸ hd o ho⟩

theorem Rests.answer (h : t.Rests u) {op : Op} (hop : op.isAnswer = true) :
    t.Rests (u.perform op) := by
  obtain ⟨registry, inbox, he⟩ := u.exists_perform_of_isAnswer hop
  rw [he]
  exact ⟨h.frame, h.store, h.permanent, h.objects⟩

/-- **With nothing due, a pass publishes nothing.** -/
theorem Rests.pass (h : t.Rests u) (hq : ∀ o ∈ t.objects, o.queued = [])
    (hd : ∀ o ∈ t.objects, o.due = []) : t.Rests u.pass.1 := by
  have idle := h.idle hq hd
  rw [pass_of_due (fun o ho => (idle o ho).1) fun o ho => (idle o ho).2]
  refine ⟨h.frame, h.store, h.permanent, ?_⟩
  have received : (u.objects.map (Tracked.receive u.inbox)).map Tracked.unbound =
      u.objects.map Tracked.unbound := by
    rw [List.map_map]
    exact List.map_congr_left fun o _ => o.unbound_receive u.inbox
  rw [← h.objects, ← received]
  simp [judge, Session.received, Tracked.unbound]

/-! ## What answers bind -/

variable {answers more : Answers} {direct : String → Binding → Prop}
  {calls calls' : String → List Call}

/-- The variables of an object that no query waits for get no more bindings. -/
theorem narrow_of_not_pending (ht : t.Ledger answers direct) (hkeyed : t.registry.Keyed)
    (hinbox : t.inbox = []) (distinct : (t.objects.map Tracked.id).Nodup)
    (hu : u.Ledger more t.Holds) (hm : u.matcher = t.matcher) {o o' : Tracked}
    (ho : o ∈ t.objects) (ho' : o' ∈ u.objects) (same : o.unbound = o'.unbound)
    (grown : o.bindings <+: o'.bindings) {vars : List String}
    (hvars : ∀ q ∈ t.registry.pending, q.object = o.id → q.var ∉ vars) :
    o'.view.narrow vars = o.view.narrow vars := by
  have field {β : Type} (f : Tracked → β) : f o.unbound = f o'.unbound := congrArg f same
  have id : o.id = o'.id := field Tracked.id
  have self : o.self = o'.self := field Tracked.self
  have applied : o.calls = o'.calls := field Tracked.calls
  have emitted : o'.emitted u.matcher = o.emitted t.matcher := by
    rw [hm]
    exact (congrArg (Tracked.emitted t.matcher) same).symm
  obtain ⟨new, hnew⟩ := grown
  have places : ((o.bindings ++ new).map Binding.place).Nodup := hnew ▸ (hu.objects o' ho').placed
  rw [List.map_append, List.nodup_append] at places
  -- a new binding answers a query, which waits, or else its place would be taken
  have unread : ∀ b ∈ new, b.var ∉ vars := by
    intro b hb
    have free : ∀ c ∈ o.bindings, c.place ≠ b.place := fun c hc =>
      places.2.2 _ (List.mem_map_of_mem hc) _ (List.mem_map_of_mem hb)
    have bound : b ∈ o'.bindings := hnew ▸ List.mem_append_right _ hb
    rcases (hu.objects o' ho').bound b bound with ⟨a, ha, haid, hba⟩ | ⟨q, hq, values, -, rfl⟩
    · have : a = o := List.inj_on_of_nodup_map distinct ha ho (haid.trans id.symm)
      subst this
      exact absurd rfl (free b hba)
    · rw [emitted] at hq
      refine hvars q ?_ (Tracked.object_of_mem_emitted hq)
      by_contra hwait
      obtain ⟨known, hk⟩ := ht.first?_of_not_pending hkeyed ho hq hwait
      obtain ⟨c, hc, hplace, -⟩ := ht.exists_binding hinbox ho hq hk
      exact free c hc hplace
  have nothing : new.filter (fun b => vars.contains b.var) = [] := by
    rw [List.filter_eq_nil_iff]
    intro b hb
    rw [List.contains_iff_mem]
    exact unread b hb
  unfold View.narrow Tracked.view
  simp only [← hnew, List.filter_append, nothing, List.append_nil, ← id, ← self, ← applied]

/-- What is judged of an object depends, constraint by constraint, on the bindings of the
variables that are read. -/
theorem judgement_congr_reads (hf : u.frame = t.frame) (hs : u.store = t.store) {o o' : Tracked}
    (rule : o.rule = o'.rule)
    (hview : ∀ c ∈ o.rule.constraints, o'.view.narrow c.reads = o.view.narrow c.reads) :
    u.judgement o' = t.judgement o := by
  obtain ⟨settings, -, subtyping⟩ := frame_eq_iff.mp hf
  have same : o.rule.judge t.settings.constraints.policy (t.context t.store o) =
      o.rule.judge t.settings.constraints.policy { t.context t.store o with view := o'.view } :=
    Rule.judge_congr _ (t.store.local_lookup _) fun c hc => (hview c hc).symm
  unfold judgement
  rw [same, ← rule, settings]
  simp only [Session.context, ConstraintSettings.context, settings, subtyping, hs]

/-! ## Answers and passes -/

/-- Only answers and passes. -/
def Answering (ops : List Op) : Prop := ∀ op ∈ ops, op.isAnswer = true ∨ op = .pass

theorem Rests.run (h : t.Rests u) (hq : ∀ o ∈ t.objects, o.queued = [])
    (hd : ∀ o ∈ t.objects, o.due = []) {ops : List Op} (hops : Answering ops) :
    t.Rests (u.run ops) := by
  induction ops generalizing u with
  | nil => exact h
  | cons op ops ih =>
    obtain ⟨hop, hops⟩ := List.forall_mem_cons.mp hops
    refine ih ?_ hops
    rcases hop with hop | rfl
    · exact h.answer hop
    · exact h.pass hq hd

/-- The queries of an object wait for no variable that its constraints read. -/
def Informed (t : Session) : Prop :=
  ∀ q ∈ t.registry.pending, ∀ o ∈ t.objects, q.object = o.id → q.var ∉ o.rule.reads

/-- The findings are those of the objects and facts as they are. -/
def Judged (t : Session) : Prop :=
  t.findings = Report.empty.extend (t.objects.flatMap fun o => (t.judgement o).violations)

/-- The same is found if no query waits for what is read. -/
theorem Rests.findings (rests : t.Rests u) (c : t.Chronicle calls) (ht : t.Ledger answers direct)
    (hkeyed : t.registry.Keyed) (hinbox : t.inbox = []) (hj : t.Judged) (hr : t.Informed)
    (ledger : u.Ledger more t.Holds) (distinct : (u.objects.map Tracked.id).Nodup)
    (kept : t.Keeps u) (judged : u.Judged) : u.findings = t.findings := by
  have matcher := matcher_eq_of_frame rests.frame
  rw [judged, hj]
  refine congrArg Report.empty.extend
    (flatMap_congr_of_map rests.objects fun o' ho' o ho same => ?_)
  obtain ⟨a, ha, grown⟩ := kept o ho
  have id : o'.unbound.id = o.unbound.id := congrArg Tracked.id same
  have : a = o' := List.inj_on_of_nodup_map distinct ha ho' (grown.id.trans id.symm)
  subst this
  have narrow : ∀ d ∈ o.rule.constraints, a.view.narrow d.reads = o.view.narrow d.reads :=
    fun d hd => narrow_of_not_pending ht hkeyed hinbox c.distinct ledger matcher ho ha
      same.symm grown.bindings fun q hq hobject hv =>
        hr q hq o ho hobject (List.mem_flatMap.mpr ⟨d, hd, hv⟩)
  have rule : o.rule = a.rule := (congrArg (fun o => o.rule) same).symm
  rw [judgement_congr_reads rests.frame rests.store rule narrow]

/-- **Where all that is read is known, answers lead to no other findings.** -/
theorem findings_run (c : t.Chronicle calls) (ht : t.Ledger answers direct)
    (hkeyed : t.registry.Keyed) (hs : t.Settled) (hd : ∀ o ∈ t.objects, o.due = [])
    (hj : t.Judged) (hr : t.Informed) {ops : List Op} (hops : Answering ops) :
    (t.run ops).findings = t.findings := by
  induction ops using List.reverseRecOn with
  | nil => rfl
  | append_singleton ops op ih =>
    have before : Answering ops := fun op' h => hops op' (List.mem_append_left _ h)
    rcases hops op (List.mem_append_right _ (List.mem_singleton_self op)) with hop | rfl
    · obtain ⟨registry, inbox, he⟩ := (t.run ops).exists_perform_of_isAnswer hop
      rw [run_concat, he]
      exact ih before
    · have rests : t.Rests (t.run (ops ++ [Op.pass])) := t.rests_self.run hs.queued hd hops
      have ledger : (t.run (ops ++ [Op.pass])).Ledger (answers ++ t.answers (ops ++ [Op.pass]))
          t.Holds := by
        refine (ht.holds.run c (ops ++ [Op.pass])).rebase fun o _ b _ hb => hb.resolve_right ?_
        intro hbind
        rcases hops _ hbind with hb | hb <;> cases hb
      have judged : (t.run (ops ++ [Op.pass])).Judged := by
        rw [run_concat]
        exact findings_pass _
      exact rests.findings c ht hkeyed hs.inbox hj hr ledger (c.run _).distinct (t.keeps_run _)
        judged

/-- **A settled pass is final as far as its queries are read.** After any run, a settled pass,
and then only answers and passes, no fact is published and no call is recorded any more. The
report is the same if no query of an object waits for a variable that its constraints
read. -/
theorem final_of_settled {settings : Settings} {rules : Rulebook} {subtyping : Subtyping}
    {s : Session} (h : start settings rules subtyping = .ok s) (ops : List Op)
    (hsettled : (s.run ops).pass.2.isSettled = true) {later : List Op}
    (hlater : Answering later) :
    let t := (s.run ops).pass.1
    (t.run later).store = t.store ∧ (t.run later).permanent = t.permanent ∧
      (t.Informed → (t.run later).report = t.report) := by
  intro t
  have chronicle := ((chronicle_start h).run ops).pass
  have ledger := ((ledger_start h).run (chronicle_start h) ops).pass ((chronicle_start h).run ops)
  have keyed : t.registry.Keyed :=
    keyed_perform (keyed_run (unasked_start h).keyed ops) .pass
  have hs : t.Settled := (s.run ops).settled_of_pass
  have due := due_of_isSettled hsettled
  have rests : t.Rests (t.run later) := t.rests_self.run hs.queued due hlater
  refine ⟨rests.store, rests.permanent, fun hr => ?_⟩
  have findings := findings_run chronicle ledger keyed hs due (s.run ops).findings_pass hr hlater
  rw [report, report, rests.permanent, findings]

/-- The algorithm is told once and accepted; another answer to the same query changes
nothing. -/
theorem final_of_settled_init :
    let s := resetSession.run initOps
    let later : List Op :=
      [.supply (algorithmAt "1") [.unresolved], .pass, .resolveAll fun _ => none]
    start resetSession.settings resetSession.rules resetSession.subtyping = .ok resetSession ∧
      s.pass.2.isSettled = true ∧ Answering later ∧ s.pass.1.Informed ∧
      (s.pass.1.run later).report = s.pass.1.report := by
  intro s later
  have started : start resetSession.settings resetSession.rules resetSession.subtyping =
      .ok resetSession := rfl
  have settled : s.pass.2.isSettled = true := by decide
  have answering : Answering later := by
    unfold Answering
    simp [later, Op.isAnswer]
  have read : s.pass.1.Informed := by
    unfold Informed
    decide
  exact ⟨started, settled, answering, read,
    (final_of_settled started initOps settled answering).2.2 read⟩

/-- The algorithm is told at the first site, and that settles the pass. The answer for the
second site makes a later pass record a misuse. -/
theorem report_of_settled_reset :
    let s := (resetSession.run (initOps ++ [resetOp])).pass
    let later : List Op :=
      [.supply (algorithmAt "2") [⟨.constant (.text "DES"), none⟩], .pass]
    start resetSession.settings resetSession.rules resetSession.subtyping = .ok resetSession ∧
      resetSession.rules.rejected = [] ∧
      s.2.isSettled = true ∧ Answering later ∧
      s.1.report.records = [] ∧
      (s.1.run later).report.records.map Violation.kind = [.constraint] ∧
      (s.1.run later).report ≠ s.1.report := by
  intro s later
  have answering : Answering later := by
    unfold Answering
    simp [later, Op.isAnswer]
  have before : s.1.report.records = [] := by decide +kernel
  have after : (s.1.run later).report.records.map Violation.kind = [.constraint] := by
    decide +kernel
  have differ : (s.1.run later).report ≠ s.1.report := by
    intro same
    rw [same, before] at after
    cases after
  exact ⟨rfl, by decide, by decide +kernel, answering, before, after, differ⟩

end Session

end Misuse
