import Misuse.Proofs.Shuffling

/-!
# The order of answers

Answers to different queries may be given in any order between two passes. Each object then
holds the same bindings, in an order of its own (`Exchange.shuffled_readied`), so the next
pass leaves the same facts and the same records but for the sites (`report_of_exchange`).
The report is the same if the answers that one constraint of an object reads come in the same
order. If they do not, the sites are listed in another order (`report_of_swapped_answers`).
-/

namespace Misuse

namespace Registry

/-- What an answer delivers depends on what is known of its query. -/
theorem snd_resolve_congr {r r' : Registry String} {q : Query} (h : r.status? q = r'.status? q)
    (values : List Value) : (r.resolve q values).2.1 = (r'.resolve q values).2.1 := by
  unfold resolve
  rw [h]
  split <;> rfl

end Registry

namespace Answers

/-- An answer to a query of an object for one of some variables. -/
def isAbout (object : String) (vars : List String) (a : Query × List Value) : Bool :=
  a.1.object == object && vars.contains a.1.var

/-- The answers about an object and some variables, in the order in which they are given. -/
def about (object : String) (vars : List String) (answers : Answers) : Answers :=
  answers.filter (isAbout object vars)

/-- Answers to different queries may come in any order. -/
theorem first?_perm {answers answers' : Answers} (h : answers.Perm answers')
    (once : (answers.map Prod.fst).Nodup) (q : Query) : answers.first? q = answers'.first? q := by
  have once' : (answers'.map Prod.fst).Nodup := (h.map Prod.fst).nodup_iff.mp once
  refine Option.ext fun values => ?_
  rw [first?, first?, find?_key_eq_some_iff once, find?_key_eq_some_iff once', h.mem_iff]

end Answers

namespace Session

/-! ## Giving answers one by one -/

/-- What is known of a query depends on its first answer. -/
theorem status?_supplyAll (s : Session) (answers : Answers) (q : Query) :
    (s.supplyAll answers).registry.status? q =
      ((answers.first? q).map fun values =>
        Registry.answeredStatus values (s.registry.status? q)).or (s.registry.status? q) := by
  induction answers generalizing s with
  | nil => rfl
  | cons a answers ih =>
    rw [supplyAll_cons, ih, status?_supply, Answers.first?_cons]
    by_cases h : a.1 = q
    · subst h
      rw [if_pos rfl, if_pos rfl]
      -- a later answer to the same query changes nothing
      have stays (values : List Value) (st : Option (Registry.Status String)) :
          Registry.answeredStatus values (some (Registry.answeredStatus a.2 st)) =
            Registry.answeredStatus a.2 st := by
        cases st with
        | none => rfl
        | some known => cases known <;> rfl
      cases Answers.first? answers a.1 with
      | none => rfl
      | some values => exact congrArg some (stays values _)
    · rw [if_neg h, if_neg h]

/-- Answers to different queries are delivered each by itself. -/
theorem inbox_supplyAll (s : Session) {answers : Answers} (once : (answers.map Prod.fst).Nodup) :
    (s.supplyAll answers).inbox =
      s.inbox ++ answers.flatMap fun a => (s.registry.resolve a.1 a.2).2.1 := by
  induction answers generalizing s with
  | nil => exact (List.append_nil _).symm
  | cons a answers ih =>
    obtain ⟨fresh, once⟩ := List.nodup_cons.mp once
    have inbox : (s.supply a.1 a.2).1.inbox = s.inbox ++ (s.registry.resolve a.1 a.2).2.1 := rfl
    have later : answers.flatMap (fun b => ((s.supply a.1 a.2).1.registry.resolve b.1 b.2).2.1) =
        answers.flatMap fun b => (s.registry.resolve b.1 b.2).2.1 := by
      refine List.flatMap_congr fun b hb => Registry.snd_resolve_congr ?_ b.2
      rw [status?_supply, if_neg fun (he : a.1 = b.1) => fresh (he ▸ List.mem_map_of_mem hb)]
    rw [supplyAll_cons, ih _ once, inbox, later, List.flatMap_cons, List.append_assoc]

/-- Of what is delivered, the part for an object and some variables comes from the answers
about them. -/
theorem Ledger.filter_deliveries {s : Session} {base : Answers}
    {direct : String → Binding → Prop} (h : s.Ledger base direct) (object : String)
    (vars : List String) (answers : Answers) :
    (answers.flatMap fun a => (s.registry.resolve a.1 a.2).2.1).filter
        (fun d => decide (d.target = object) && vars.contains d.binding.var) =
      (Answers.about object vars answers).flatMap fun a => (s.registry.resolve a.1 a.2).2.1 := by
  induction answers with
  | nil => rfl
  | cons a answers ih =>
    have own : ∀ d ∈ (s.registry.resolve a.1 a.2).2.1,
        (decide (d.target = object) && vars.contains d.binding.var) =
          Answers.isAbout object vars a := by
      intro d hd
      rw [h.eq_of_mem_resolve hd, Answers.isAbout, beq_eq_decide]
      rfl
    rw [List.flatMap_cons, List.filter_append, ih, List.filter_congr own]
    unfold Answers.about
    cases ha : Answers.isAbout object vars a with
    | true =>
      rw [List.filter_cons_of_pos ha, List.flatMap_cons, List.filter_eq_self.mpr fun _ _ => rfl]
    | false =>
      rw [List.filter_cons_of_neg (Bool.eq_false_iff.mp ha),
        List.filter_eq_nil_iff.mpr fun _ _ => Bool.false_ne_true, List.nil_append]

/-! ## Advancing an object -/

/-- What the calls of an object ask and violate does not depend on its bindings. -/
theorem applyQueued_receive (m : Matcher) (o : Tracked) (ds : List (Delivery String)) :
    ((o.receive ds).applyQueued m).queries = (o.applyQueued m).queries ∧
      ((o.receive ds).applyQueued m).violations = (o.applyQueued m).violations ∧
      ((o.receive ds).applyQueued m).object.unbound = (o.applyQueued m).object.unbound := by
  rw [Tracked.receive_eq, Tracked.applyQueued_eq, Tracked.applyQueued_eq]
  exact ⟨rfl, rfl, rfl⟩

theorem advanced_eq (s : Session) (o : Tracked) :
    (s.advanced o).queries = (o.applyQueued s.matcher).queries ∧
      (s.advanced o).violations = (o.applyQueued s.matcher).violations ∧
      (s.advanced o).object.unbound = (o.applyQueued s.matcher).object.unbound :=
  applyQueued_receive s.matcher o s.inbox

theorem unbound_readied (s : Session) (o : Tracked) :
    (s.readied o).unbound = (o.applyQueued s.matcher).object.unbound := by
  rw [readied, Tracked.unbound_receive, (s.advanced_eq o).2.2]

/-- What an object holds when its calls are applied, as one list of deliveries. -/
theorem bindings_readied (s : Session) (o : Tracked) :
    (s.readied o).bindings =
      (o.receive (s.inbox ++ (s.advanced o).queries.flatMap s.registry.answersTo)).bindings := by
  rw [readied, Tracked.receive_append]
  refine Tracked.bindings_receive_congr ?_ (s.bindings_advanced o) _
  rw [id_advanced, Tracked.id_receive]

/-- Answers bind variables of an object, and that is all. -/
theorem unbound_readied_supplyAll (s : Session) (answers : Answers) (o : Tracked) :
    ((s.supplyAll answers).readied o).unbound = (o.applyQueued s.matcher).object.unbound := by
  rw [unbound_readied, matcher_supplyAll]

/-! ## Two orders -/

/-- A session between two passes, and the same answers to different queries in two orders. -/
structure Exchange (s : Session) (calls : String → List Call)
    (base answers answers' : Answers) : Prop where
  chronicle : s.Chronicle calls
  ledger : s.Ledger base s.Holds
  keyed : s.registry.Keyed
  perm : answers.Perm answers'
  once : (answers.map Prod.fst).Nodup

variable {s : Session} {calls : String → List Call} {base answers answers' : Answers}

namespace Exchange

theorem symm (h : s.Exchange calls base answers answers') :
    s.Exchange calls base answers' answers where
  chronicle := h.chronicle
  ledger := h.ledger
  keyed := h.keyed
  perm := h.perm.symm
  once := (h.perm.map Prod.fst).nodup_iff.mp h.once

variable (h : s.Exchange calls base answers answers')
include h

theorem status_eq : (s.supplyAll answers).registry.status? =
    (s.supplyAll answers').registry.status? := by
  funext q
  rw [status?_supplyAll, status?_supplyAll, Answers.first?_perm h.perm h.once]

theorem objects_prepare : (s.supplyAll answers).prepare.objects =
    s.objects.map (s.supplyAll answers).readied := by
  rw [Session.objects_prepare (h.chronicle.supplyAll answers).distinct, objects_supplyAll]

theorem ledger_prepare : (s.supplyAll answers).prepare.Ledger (base ++ answers) s.Holds :=
  (h.ledger.supplyAll answers).prepare (h.chronicle.supplyAll answers)

section Objects

variable {o : Tracked} (ho : o ∈ s.objects)
include ho

/-- What an object holds with the answers in one order, it holds with them in the other. -/
theorem mem_bindings {b : Binding} (hb : b ∈ ((s.supplyAll answers).readied o).bindings) :
    b ∈ ((s.supplyAll answers').readied o).bindings := by
  have here : (s.supplyAll answers).readied o ∈ (s.supplyAll answers).prepare.objects :=
    h.objects_prepare ▸ List.mem_map_of_mem ho
  have there : (s.supplyAll answers').readied o ∈ (s.supplyAll answers').prepare.objects :=
    h.symm.objects_prepare ▸ List.mem_map_of_mem ho
  have inbox : (s.supplyAll answers').prepare.inbox = [] := by rw [prepare_eq]
  have kept {c : Binding} (hc : c ∈ o.bindings) (more : Answers) :
      c ∈ ((s.supplyAll more).readied o).bindings := by
    rw [bindings_readied]
    exact (Tracked.prefix_receive _ o).subset hc
  refine h.ledger_prepare.mem_bindings_of_known h.symm.ledger_prepare inbox here there
    (by rw [id_readied, id_readied]) ?_ ?_ hb ?_
  · have emitted := congrArg (Tracked.emitted s.matcher)
      ((s.unbound_readied_supplyAll answers o).trans (s.unbound_readied_supplyAll answers' o).symm)
    rw [matcher_prepare, matcher_prepare, matcher_supplyAll, matcher_supplyAll]
    exact fun q hq => emitted ▸ hq
  · intro q values hq
    rwa [Answers.first?_append, ← Answers.first?_perm h.perm h.once, ← Answers.first?_append]
  · rintro c - ⟨a, ha, hid, hc⟩
    rw [id_readied] at hid
    rw [List.inj_on_of_nodup_map h.chronicle.distinct ha ho hid] at hc
    exact ⟨kept hc answers, kept hc answers'⟩

/-- **Whatever the order of the answers, an object holds the same bindings.** -/
theorem shuffled_readied :
    ((s.supplyAll answers).readied o).Shuffled ((s.supplyAll answers').readied o) where
  unbound := by rw [unbound_readied_supplyAll, unbound_readied_supplyAll]
  bindings := by
    have placed (more : Answers) : ((s.supplyAll more).readied o).Placed :=
      placed_readied (h.ledger.objects o ho).placed
    refine (List.perm_ext_iff_of_nodup (nodup_of_keys (placed answers))
      (nodup_of_keys (placed answers'))).mpr fun b => ?_
    exact ⟨h.mem_bindings ho, h.symm.mem_bindings ho⟩

end Objects

theorem status_prepare : (s.supplyAll answers).prepare.registry.status? =
    (s.supplyAll answers').prepare.registry.status? := by
  have asked (more : Answers) : (s.supplyAll more).newQueries =
      s.objects.flatMap fun o => (o.applyQueued s.matcher).queries := by
    rw [newQueries, objects_supplyAll]
    refine List.flatMap_congr fun o _ => ?_
    rw [(advanced_eq _ o).1, matcher_supplyAll]
  funext q
  rw [status?_prepare, status?_prepare, h.status_eq, asked, asked]

theorem keyed_prepare (more : Answers) : (s.supplyAll more).prepare.registry.Keyed :=
  Session.keyed_prepare (keyed_supplyAll h.keyed more)

/-- **Before facts are published, only the order of the bindings differs.** -/
theorem shuffled : (s.supplyAll answers).prepare.Shuffled (s.supplyAll answers').prepare where
  frame := by rw [frame_prepare, frame_prepare, frame_supplyAll, frame_supplyAll]
  objects := by
    rw [h.objects_prepare, h.symm.objects_prepare, List.forall₂_map_left_iff,
      List.forall₂_map_right_iff, List.forall₂_same]
    exact fun o ho => h.shuffled_readied ho
  waiting id x := by
    rw [mem_waitingVars_iff (h.keyed_prepare answers),
      mem_waitingVars_iff (h.keyed_prepare answers'), h.status_prepare]
  store := by rw [store_prepare, store_prepare, store_supplyAll, store_supplyAll]
  permanent := by
    have recorded (more : Answers) : (s.supplyAll more).prepare.permanent =
        s.permanent.extend (s.objects.flatMap fun o => (o.applyQueued s.matcher).violations) := by
      rw [permanent_prepare, objects_supplyAll, permanent_supplyAll]
      refine congrArg _ (List.flatMap_congr fun o _ => ?_)
      rw [(advanced_eq _ o).2.1, matcher_supplyAll]
    rw [recorded, recorded]

/-- An object reads variables in the order in which their answers are given. -/
theorem filter_readied {o : Tracked} {vars : List String}
    (same : Answers.about o.id vars answers = Answers.about o.id vars answers') :
    ((s.supplyAll answers).readied o).bindings.filter (fun b => vars.contains b.var) =
      ((s.supplyAll answers').readied o).bindings.filter fun b => vars.contains b.var := by
  have known : (s.supplyAll answers).registry.answersTo =
      (s.supplyAll answers').registry.answersTo := by
    funext q
    rw [Registry.answersTo, Registry.answersTo, h.status_eq]
  have asked : ((s.supplyAll answers).advanced o).queries =
      ((s.supplyAll answers').advanced o).queries := by
    rw [(advanced_eq _ o).1, (advanced_eq _ o).1, matcher_supplyAll, matcher_supplyAll]
  simp only [bindings_readied, Tracked.filter_receive, inbox_supplyAll s h.once,
    inbox_supplyAll s h.symm.once, List.filter_append, h.ledger.filter_deliveries, same, known,
    asked]

theorem sameReads_readied {o : Tracked} (ho : o ∈ s.objects)
    (same : ∀ c ∈ o.rule.constraints,
      Answers.about o.id c.reads answers = Answers.about o.id c.reads answers') :
    ((s.supplyAll answers).readied o).SameReads ((s.supplyAll answers').readied o) := by
  have rule := (s.supplyAll answers).rule_readied o
  exact (h.shuffled_readied ho).sameReads fun c hc => h.filter_readied (same c (rule ▸ hc))

end Exchange

/-- **What the order of answers can change.** Take any run, and answers to different queries,
given in two orders before the next pass. After it the same facts are visible, the same calls
are recorded as misplaced or banned, and every record of either report has one in the other
that is the same but for its sites. The reports are the same if, for every constraint of an
object, the answers that it reads come in the same order. -/
theorem report_of_exchange {settings : Settings} {rules : Rulebook} {subtyping : Subtyping}
    (h : start settings rules subtyping = .ok s) (ops : List Op) (perm : answers.Perm answers')
    (once : (answers.map Prod.fst).Nodup) :
    let t := s.run ops
    let u := (t.supplyAll answers).pass.1
    let v := (t.supplyAll answers').pass.1
    u.store = v.store ∧ u.permanent = v.permanent ∧ u.report.Alike v.report ∧
      ((∀ o ∈ t.objects, ∀ c ∈ o.rule.constraints,
          Answers.about o.id c.reads answers = Answers.about o.id c.reads answers') →
        u.report = v.report) := by
  intro t u v
  have exchange : t.Exchange (fun id => [] ++ s.observed id ops) ([] ++ s.answers ops) answers
      answers' :=
    { chronicle := (chronicle_start h).run ops
      ledger := ((ledger_start h).run (chronicle_start h) ops).holds
      keyed := keyed_run (unasked_start h).keyed ops
      perm
      once }
  have shuffled := exchange.shuffled
  have unfailed : (t.supplyAll answers).prepare.Unfailed := by
    have run : (t.supplyAll answers).Unfailed := by
      rw [Unfailed, permanent_supplyAll]
      exact (unfailed_start h).run ops
    rw [Unfailed, ← permanent_pass_prepare]
    exact run.pass
  refine ⟨shuffled.store_pass, ?_, shuffled.alike_pass unfailed, fun same => ?_⟩
  · exact (permanent_pass_prepare _).trans
      (shuffled.permanent.trans (permanent_pass_prepare _).symm)
  · refine shuffled.report_pass fun o ho o' ho' unbound => ?_
    rw [exchange.objects_prepare] at ho
    rw [exchange.symm.objects_prepare] at ho'
    obtain ⟨a, ha, rfl⟩ := List.mem_map.mp ho
    obtain ⟨b, hb, rfl⟩ := List.mem_map.mp ho'
    have id : a.id = b.id := by
      have ids : ((t.supplyAll answers).readied a).id = ((t.supplyAll answers').readied b).id :=
        congrArg (fun o => o.id) unbound
      rwa [id_readied, id_readied] at ids
    have : a = b := List.inj_on_of_nodup_map exchange.chronicle.distinct ha hb id
    subst this
    exact exchange.sameReads_readied ha (same a ha)

/-! ## Answers for two sites -/

/-- The answer that some algorithm is DES. -/
def isDes (object site : String) : Query × List Value :=
  (⟨object, site, "alg", .argument 0⟩, [⟨.constant (.text "DES"), none⟩])

/-- Two ciphers are told their algorithms, and each one has a misuse of its own. -/
theorem report_of_exchange_ciphers :
    let t := resetSession.run (initOps.take 2 ++
      [.track "d" "d@1" "Cipher", .observe "d" ⟨"2", ⟨"Cipher", "init", ["String"]⟩, "Cipher"⟩,
       .pass])
    let answers := [isDes "c" "1", isDes "d" "2"]
    let u := (t.supplyAll answers).pass.1
    let v := (t.supplyAll answers.reverse).pass.1
    start resetSession.settings resetSession.rules resetSession.subtyping = .ok resetSession ∧
      answers.Perm answers.reverse ∧ (answers.map Prod.fst).Nodup ∧
      (∀ o ∈ t.objects, ∀ c ∈ o.rule.constraints,
        Answers.about o.id c.reads answers = Answers.about o.id c.reads answers.reverse) ∧
      u.report = v.report ∧ u.report.records.map Violation.sites = [["1"], ["2"]] := by
  intro t answers u v
  have started : start resetSession.settings resetSession.rules resetSession.subtyping =
      .ok resetSession := rfl
  have perm : answers.Perm answers.reverse := (List.reverse_perm answers).symm
  have once : (answers.map Prod.fst).Nodup := by decide
  have same : ∀ o ∈ t.objects, ∀ c ∈ o.rule.constraints,
      Answers.about o.id c.reads answers = Answers.about o.id c.reads answers.reverse := by
    decide +kernel
  refine ⟨started, perm, once, same, ?_, by decide +kernel⟩
  exact (report_of_exchange started _ perm once).2.2.2 same

/-- A cipher is told its algorithm at two sites, and has one constraint. -/
def twiceTold (c : Constraint) : Session :=
  { guardedSession with rules := Rulebook.empty.insert false { resetRule with constraints := [c] } }

/-- Answered for the second site first, a violated constraint lists that site first, and a
missing predicate points at it. -/
theorem report_of_swapped_answers :
    let restricted := twiceTold (.member (.whole "alg" "String") ["AES"])
    let approved := twiceTold (.atom ⟨"approved", [.var (.whole "alg" "String")], false⟩)
    let answers := [isDes "c" "1", isDes "c" "2"]
    let after := fun (s : Session) answers =>
      ((s.run (initOps.take 2 ++ [resetOp, .pass])).supplyAll answers).pass.1
    answers.Perm answers.reverse ∧ (answers.map Prod.fst).Nodup ∧
      (start restricted.settings restricted.rules restricted.subtyping = .ok restricted ∧
        restricted.rules.rejected = [] ∧
        (after restricted answers).report.records.map Violation.sites = [["1", "2"]] ∧
        (after restricted answers.reverse).report.records.map Violation.sites = [["2", "1"]] ∧
        (after restricted answers).report ≠ (after restricted answers.reverse).report) ∧
      start approved.settings approved.rules approved.subtyping = .ok approved ∧
        approved.rules.rejected = [] ∧
        (after approved answers).report.records.map Violation.sites = [["1"]] ∧
        (after approved answers.reverse).report.records.map Violation.sites = [["2"]] := by
  intro restricted approved answers after
  have first : (after restricted answers).report.records.map Violation.sites = [["1", "2"]] := by
    decide +kernel
  have second :
      (after restricted answers.reverse).report.records.map Violation.sites = [["2", "1"]] := by
    decide +kernel
  have differ : (after restricted answers).report ≠ (after restricted answers.reverse).report := by
    intro same
    rw [same, second] at first
    exact absurd first (by decide)
  refine ⟨(List.reverse_perm answers).symm, by decide, ⟨rfl, by decide, first, second, differ⟩,
    rfl, by decide, by decide +kernel, by decide +kernel⟩

end Session

end Misuse
