import Mathlib.Data.Option.Basic
import Misuse.Proofs.Answers
import Misuse.Proofs.Endings
import Misuse.Proofs.Exchange
import Misuse.Proofs.Visibility

/-!
# Objects by themselves

Facts are the only way from one object to another. Where the constraints of an object look no
facts up, what is found of it depends on the operations about this object, and on those about
no single one: two sessions that are alike for an object (`AlikeFor`) stay so through every
such operation (`AlikeFor.perform`), and an operation about another object leaves a session
alike (`alikeFor_of_other`). So a run may leave the others out (`alikeFor_run`).
-/

namespace Misuse

/-! ## An object without its effects -/

namespace Tracked

/-- An object, effects that are due aside. -/
def undue (o : Tracked) : Tracked := { o with due := [] }

theorem undue_bind (o : Tracked) (b : Binding) : (o.bind b).undue = o.undue.bind b := by
  unfold bind hasPlace undue
  split <;> rfl

theorem undue_receive (ds : List (Delivery String)) (o : Tracked) :
    (o.receive ds).undue = o.undue.receive ds := by
  induction ds generalizing o with
  | nil => rfl
  | cons d ds ih =>
    have id : o.undue.id = o.id := rfl
    rw [receive_cons, receive_cons, ih, id]
    split
    · rw [undue_bind]
    · rfl

variable {o o' : Tracked}

theorem eq_of_undue (h : o.undue = o'.undue) : o' = { o with due := o'.due } := by
  cases o
  cases o'
  simp only [undue, mk.injEq] at h ⊢
  simp [h]

theorem rule_of_undue (h : o.undue = o'.undue) : o.rule = o'.rule := (congrArg Tracked.rule h :)

theorem view_of_undue (h : o.undue = o'.undue) : o.view = o'.view := by
  rw [eq_of_undue h]
  rfl

/-- What is due has no bearing on what the queued calls ask and violate. -/
theorem applyQueued_of_undue (h : o.undue = o'.undue) (m : Matcher) :
    (o.applyQueued m).queries = (o'.applyQueued m).queries ∧
      (o.applyQueued m).violations = (o'.applyQueued m).violations ∧
      (o.applyQueued m).object.undue = (o'.applyQueued m).object.undue := by
  rw [eq_of_undue h, applyQueued_eq, applyQueued_eq]
  exact ⟨rfl, rfl, rfl⟩

/-- Deliveries to others, and what is due, have no bearing on what an object receives. -/
theorem receive_of_undue (h : o.undue = o'.undue) {ds ds' : List (Delivery String)}
    (hds : ds.filter (fun d => decide (d.target = o.id)) =
      ds'.filter fun d => decide (d.target = o.id)) :
    (o.receive ds).undue = (o'.receive ds').undue := by
  have id : o.undue.id = o.id := rfl
  rw [undue_receive, undue_receive, ← h, ← receive_filter, ← receive_filter ds', id, hds]

end Tracked

/-! ## What belongs to one object -/

theorem Report.forObject_eq_filter (r : Report) (id : String) :
    r.forObject id = r.records.filter fun v => decide (v.object = some id) := by
  refine List.filter_congr fun v _ => ?_
  rw [Bool.eq_iff_iff, beq_iff_eq, decide_eq_true_iff]

theorem Report.forObject_extend (r : Report) (vs : List Violation) (id : String) :
    (r.extend vs).forObject id =
      (Report.extend ⟨r.forObject id⟩
        (vs.filter fun v => decide (v.object = some id))).records := by
  rw [forObject_eq_filter, forObject_eq_filter,
    filter_records_extend fun v w h => by rw [Violation.object_of_key h]]

namespace Session

variable {s t : Session} {id : String}

/-- The object of an id, as the list of those that have it. -/
theorem filter_objects (h : (s.objects.map Tracked.id).Nodup) (id : String) :
    s.objects.filter (fun o => decide (o.id = id)) = (s.object? id).toList := by
  cases ho : s.object? id with
  | none =>
    rw [Option.toList_none, List.filter_eq_nil_iff]
    intro o hmem
    simpa using List.find?_eq_none.mp ho o hmem
  | some o =>
    have own : Owned (fun o : Tracked => [o]) Tracked.id Tracked.id := by
      intro a b hb
      rw [List.mem_singleton.mp hb]
    have block := filter_flatMap_owner own h (List.mem_of_find?_eq_some ho)
    rw [List.flatMap_singleton', id_of_object? ho] at block
    exact block

/-- Of what the objects bring, one has its own part. -/
theorem filter_objects_flatMap {β ι : Type} [DecidableEq ι] {f : Tracked → List β} {owner : β → ι}
    {key : String → ι} (hkey : Function.Injective key)
    (own : Owned f owner fun o => key o.id) (h : (s.objects.map Tracked.id).Nodup) (id : String) :
    (s.objects.flatMap f).filter (fun v => decide (owner v = key id)) =
      (s.object? id).toList.flatMap f := by
  have same : s.objects.filter (fun o => decide (key o.id = key id)) =
      s.objects.filter fun o => decide (o.id = id) :=
    List.filter_congr fun o _ => decide_eq_decide.mpr hkey.eq_iff
  rw [filter_flatMap own, same, filter_objects h]

/-- Of the records about its objects, those about one. -/
theorem filter_records {f : Tracked → List Violation}
    (own : Owned f Violation.object fun o => some o.id) (h : (s.objects.map Tracked.id).Nodup)
    (id : String) :
    (s.objects.flatMap f).filter (fun v => decide (v.object = some id)) =
      (s.object? id).toList.flatMap f :=
  filter_objects_flatMap (Option.some_injective String) own h id

/-! ## Sessions that are alike for an object -/

/-- What a run from the start keeps: no object is tracked twice, no query is entered twice, and
whoever listens is the object of the query. -/
structure Orderly (s : Session) : Prop where
  distinct : (s.objects.map Tracked.id).Nodup
  keyed : s.registry.Keyed
  heard : ∀ q, Registry.Heard q (s.registry.status? q)

theorem orderly_run {settings : Settings} {rules : Rulebook} {subtyping : Subtyping}
    (h : start settings rules subtyping = .ok s) (ops : List Op) : (s.run ops).Orderly :=
  ⟨((chronicle_start h).run ops).distinct, keyed_run (unasked_start h).keyed ops,
    ((ledger_start h).run (chronicle_start h) ops).heard⟩

/-- Two sessions that do not differ for an object, effects that are due aside. -/
structure AlikeFor (id : String) (s t : Session) : Prop where
  frame : s.frame = t.frame
  object : (s.object? id).map Tracked.undue = (t.object? id).map Tracked.undue
  status : ∀ q : Query, q.object = id → s.registry.status? q = t.registry.status? q
  inbox : s.inbox.filter (fun d => decide (d.target = id)) =
    t.inbox.filter fun d => decide (d.target = id)
  permanent : s.permanent.forObject id = t.permanent.forObject id
  findings : s.findings.forObject id = t.findings.forObject id

theorem alikeFor_self (id : String) (s : Session) : AlikeFor id s s :=
  ⟨rfl, rfl, fun _ _ => rfl, rfl, rfl, rfl⟩

theorem AlikeFor.trans {u : Session} (h : AlikeFor id s t) (h' : AlikeFor id t u) :
    AlikeFor id s u :=
  ⟨h.frame.trans h'.frame, h.object.trans h'.object,
    fun q hq => (h.status q hq).trans (h'.status q hq), h.inbox.trans h'.inbox,
    h.permanent.trans h'.permanent, h.findings.trans h'.findings⟩

/-- Answers are for the object of their query. -/
theorem Orderly.owned_resolve (h : s.Orderly) :
    Owned (fun a : Query × List Value => (s.registry.resolve a.1 a.2).2.1) Delivery.target
      fun a => a.1.object := by
  intro a d hd
  obtain ⟨ls, hls, htarget, -⟩ := Registry.snd_resolve s.registry a.1 a.2 hd
  exact (h.heard a.1 ls hls).2 _ htarget

/-! ## Operations about one object -/

/-- What an operation about one object puts into the inbox. -/
def delivers (s : Session) : Op → List (Delivery String)
  | .supply q values => (s.registry.resolve q values).2.1
  | _ => []

theorem inbox_perform (s : Session) {op : Op} (single : op.object?.isSome = true) :
    (s.perform op).inbox = s.inbox ++ s.delivers op := by
  cases op with
  | track id self className =>
    simp only [perform, track, delivers, List.append_nil]
    split
    · rfl
    · split <;> rfl
  | observe id call =>
    simp only [perform, observe, delivers, List.append_nil]
    split <;> rfl
  | bind id b =>
    simp only [perform, Session.bind, delivers, List.append_nil]
    split <;> rfl
  | supply q values => rfl
  | resolveAll answer? => cases single
  | pass => cases single

/-- **An operation about another object leaves a session alike.** -/
theorem alikeFor_of_other (h : s.Orderly) {op : Op} (single : op.object?.isSome = true)
    (other : op.object? ≠ some id) : AlikeFor id (s.perform op) s := by
  obtain ⟨objects, registry, inbox, he⟩ := s.exists_perform_eq (ne_pass_of_isSome single)
  have away : (s.delivers op).filter (fun d => decide (d.target = id)) = [] := by
    cases op with
    | supply q values =>
      exact filter_block_eq_nil h.owned_resolve (a := (q, values)) (i := id)
        fun hc => other (congrArg some hc)
    | _ => rfl
  exact
    { frame := s.frame_perform op
      object := by rw [object?_perform s single, if_neg other]
      status := fun q hq => by rw [status?_perform s single, onStatus_of_ne (hq ▸ other)]
      inbox := by rw [inbox_perform s single, List.filter_append, away, List.append_nil]
      permanent := by rw [he]
      findings := by rw [he] }

theorem onObject_of_undue (rules : Rulebook) (op : Op) {a b : Option Tracked}
    (h : a.map Tracked.undue = b.map Tracked.undue) :
    (op.onObject rules a).map Tracked.undue = (op.onObject rules b).map Tracked.undue := by
  cases a with
  | none =>
    rw [Option.map_eq_none_iff.mp h.symm]
  | some o =>
    obtain ⟨o', rfl, hu⟩ := Option.map_eq_some_iff.mp h.symm
    rw [Tracked.eq_of_undue hu.symm]
    cases op with
    | bind id b =>
      simp only [Op.onObject, Option.map_some, Tracked.undue_bind]
      rfl
    | _ => rfl

/-- Sessions that are alike for an object stay so through operations about it. -/
theorem AlikeFor.perform_own (h : AlikeFor id s t) {op : Op} (own : op.object? = some id) :
    AlikeFor id (s.perform op) (t.perform op) := by
  have single : op.object?.isSome = true := by simp [own]
  have rules : s.rules = t.rules := (frame_eq_iff.mp h.frame).2.1
  have delivered : s.delivers op = t.delivers op := by
    cases op with
    | supply q values =>
      exact Registry.snd_resolve_congr (h.status q (Option.some.inj own)) values
    | _ => rfl
  obtain ⟨objects, registry, inbox, he⟩ := s.exists_perform_eq (ne_pass_of_isSome single)
  obtain ⟨objects', registry', inbox', he'⟩ := t.exists_perform_eq (ne_pass_of_isSome single)
  exact
    { frame := by rw [frame_perform, frame_perform, h.frame]
      object := by
        rw [object?_perform s single, object?_perform t single, if_pos own, if_pos own, rules]
        exact onObject_of_undue t.rules op h.object
      status := fun q hq => by
        rw [status?_perform s single, status?_perform t single, h.status q hq]
      inbox := by
        rw [inbox_perform s single, inbox_perform t single, List.filter_append,
          List.filter_append, h.inbox, delivered]
      permanent := by
        rw [he, he']
        exact h.permanent
      findings := by
        rw [he, he']
        exact h.findings }

/-! ## Answers to all queries -/

theorem Registry.nodup_pending (r : Registry String) : r.pending.Nodup := by
  refine (Sorted.increasing_ofList _).imp fun h he => ?_
  rw [Std.LawfulEqOrd.compare_eq_iff_eq.mpr he] at h
  cases h

/-- The same queries of the object wait, in the same order. -/
theorem AlikeFor.pending (h : AlikeFor id s t) (hs : s.Orderly) (ht : t.Orderly) :
    s.registry.pending.filter (fun q => decide (q.object = id)) =
      t.registry.pending.filter fun q => decide (q.object = id) := by
  have increasing (r : Registry String) :
      Sorted.Increasing (r.pending.filter fun q => decide (q.object = id)) :=
    (Sorted.increasing_ofList _).filter _
  refine Sorted.eq_of_mem_iff (increasing _) (increasing _) fun q => ?_
  rw [List.mem_filter, List.mem_filter, decide_eq_true_iff, Registry.mem_pending_iff hs.keyed,
    Registry.mem_pending_iff ht.keyed]
  exact and_congr_left fun hq => by rw [h.status q hq]

theorem first?_filter (answers : Answers) {q : Query} (hq : q.object = id) :
    Answers.first? (answers.filter fun a => decide (a.1.object = id)) q = answers.first? q := by
  unfold Answers.first?
  rw [List.find?_filter]
  congr 2
  funext a
  by_cases h : a.1 = q
  · simp [h, hq]
  · simp [h]

/-- Sessions that are alike for an object stay so if the same answers for it are given. -/
theorem AlikeFor.supplyAll (h : AlikeFor id s t) (hs : s.Orderly) (ht : t.Orderly)
    {answers answers' : Answers} (once : (answers.map Prod.fst).Nodup)
    (once' : (answers'.map Prod.fst).Nodup)
    (same : answers.filter (fun a => decide (a.1.object = id)) =
      answers'.filter fun a => decide (a.1.object = id)) :
    AlikeFor id (s.supplyAll answers) (t.supplyAll answers') := by
  obtain ⟨registry, inbox, he⟩ := s.supplyAll_eq answers
  obtain ⟨registry', inbox', he'⟩ := t.supplyAll_eq answers'
  exact
    { frame := by rw [frame_supplyAll, frame_supplyAll, h.frame]
      object := by
        rw [he, he']
        exact h.object
      status := fun q hq => by
        rw [status?_supplyAll, status?_supplyAll, ← first?_filter answers hq, same,
          first?_filter answers' hq, h.status q hq]
      inbox := by
        rw [inbox_supplyAll s once, inbox_supplyAll t once', List.filter_append,
          List.filter_append, h.inbox, filter_flatMap hs.owned_resolve,
          filter_flatMap ht.owned_resolve, same]
        congr 1
        refine List.flatMap_congr fun a ha => Registry.snd_resolve_congr ?_ a.2
        exact h.status a.1 (by simpa using (List.mem_filter.mp ha).2)
      permanent := by
        rw [he, he']
        exact h.permanent
      findings := by
        rw [he, he']
        exact h.findings }

theorem AlikeFor.resolveAll (h : AlikeFor id s t) (hs : s.Orderly) (ht : t.Orderly)
    (answer? : Query → Option (List Value)) :
    AlikeFor id (s.resolveAll answer?) (t.resolveAll answer?) := by
  have once (u : Session) :
      ((u.answersGiven (.resolveAll answer?)).map Prod.fst).Nodup := by
    simpa [answersGiven, List.map_map, Function.comp_def] using
      Registry.nodup_pending u.registry
  rw [resolveAll_eq_supplyAll, resolveAll_eq_supplyAll]
  refine h.supplyAll hs ht (once s) (once t) ?_
  simp only [answersGiven, List.filter_map, Function.comp_def]
  rw [h.pending hs ht]

/-! ## Passes -/

/-- What two sessions make of an object is the same if it is so for the object itself. -/
theorem flatMap_object_congr {β : Type} {a b : Option Tracked}
    (h : a.map Tracked.undue = b.map Tracked.undue) {f g : Tracked → List β}
    (hfg : ∀ o, a = some o → ∀ o', o.undue = o'.undue → f o = g o') :
    a.toList.flatMap f = b.toList.flatMap g := by
  cases a with
  | none =>
    rw [Option.map_eq_none_iff.mp h.symm]
    rfl
  | some o =>
    obtain ⟨o', rfl, hu⟩ := Option.map_eq_some_iff.mp h.symm
    simpa using hfg o rfl o' hu.symm

/-- Calls lead an object to the same in both sessions. -/
theorem AlikeFor.advanced (h : AlikeFor id s t) {o o' : Tracked} (ho : o.id = id)
    (hu : o.undue = o'.undue) :
    (s.advanced o).queries = (t.advanced o').queries ∧
      (s.advanced o).violations = (t.advanced o').violations ∧
      (s.advanced o).object.undue = (t.advanced o').object.undue := by
  unfold Session.advanced
  rw [matcher_eq_of_frame h.frame]
  exact Tracked.applyQueued_of_undue (Tracked.receive_of_undue hu (ho ▸ h.inbox)) t.matcher

theorem AlikeFor.readied (h : AlikeFor id s t) {o o' : Tracked} (ho : o.id = id)
    (hu : o.undue = o'.undue) : (s.readied o).undue = (t.readied o').undue := by
  obtain ⟨queries, -, object⟩ := h.advanced ho hu
  have answers : (s.advanced o).queries.flatMap s.registry.answersTo =
      (t.advanced o').queries.flatMap t.registry.answersTo := by
    rw [← queries]
    refine List.flatMap_congr fun q hq => ?_
    rw [Registry.answersTo, Registry.answersTo,
      h.status q ((s.object_of_mem_advanced o q hq).trans ho)]
  exact Tracked.receive_of_undue object (congrArg _ answers)

/-- An object that looks nothing up is judged alike against any two stores. -/
theorem judgement_of_undue (hf : s.frame = t.frame) {o o' : Tracked} (hu : o.undue = o'.undue)
    (plain : o.rule.constraintNames = []) : s.judgement o = t.judgement o' := by
  obtain ⟨settings, -, subtyping⟩ := frame_eq_iff.mp hf
  refine judgement_of_same (by rw [settings]) subtyping (Tracked.rule_of_undue hu)
    (Tracked.view_of_undue hu) fun name hn => ?_
  rw [plain] at hn
  cases hn

/-- What a pass makes of an object, effects that are due aside. -/
def outcome (s : Session) (o : Tracked) : Tracked :=
  { (s.readied o).undue with pending := (s.pass.1.judgement (s.readied o)).pending }

theorem id_outcome (s : Session) (o : Tracked) : (s.outcome o).id = o.id := s.id_readied o

theorem undue_objects_pass (h : (s.objects.map Tracked.id).Nodup) :
    s.pass.1.objects.map Tracked.undue = s.objects.map s.outcome := by
  have judged : s.pass.1.objects.map Tracked.undue =
      (s.prepare.publish.1.objects.map Tracked.settled).map fun o =>
        { o with pending := (s.pass.1.judgement o).pending } := by
    rw [pass_fst]
    generalize s.prepare.publish.1 = t
    rw [judge, List.map_map, List.map_map]
    rfl
  rw [judged, settled_publish, objects_prepare h, List.map_map, List.map_map]
  rfl

theorem object?_pass (h : (s.objects.map Tracked.id).Nodup) (id : String) :
    (s.pass.1.object? id).map Tracked.undue = (s.object? id).map s.outcome := by
  have found := congrArg (List.find? fun o => o.id == id) (undue_objects_pass h)
  have ids : ((fun o : Tracked => o.id == id) ∘ s.outcome) = fun o => o.id == id := by
    funext o
    rw [Function.comp_apply, id_outcome]
  rw [List.find?_map, List.find?_map, ids] at found
  exact found

/-- The queries of an object are asked by this object. -/
theorem filter_newQueries (h : (s.objects.map Tracked.id).Nodup) (q : Query) :
    s.newQueries.filter (fun p => decide (p = q)) =
      ((s.object? q.object).toList.flatMap fun o => (s.advanced o).queries).filter
        fun p => decide (p = q) := by
  have own := filter_objects_flatMap Function.injective_id s.object_of_mem_advanced h q.object
  rw [← own]
  exact (filter_filter_key Query.object s.newQueries q).symm

theorem registry_pass (s : Session) : s.pass.1.registry = s.prepare.registry := by
  rw [pass_fst, judge_publish]

/-- What is judged of an object that looks nothing up is a matter of this object. -/
theorem forObject_judged (frame : s.frame = t.frame) (hs : (s.objects.map Tracked.id).Nodup)
    (ht : (t.objects.map Tracked.id).Nodup)
    (object : (s.object? id).map Tracked.undue = (t.object? id).map Tracked.undue)
    (plain : ∀ o, s.object? id = some o → o.rule.constraintNames = []) :
    (Report.empty.extend (s.objects.flatMap fun o => (s.judgement o).violations)).forObject id =
      (Report.empty.extend (t.objects.flatMap fun o => (t.judgement o).violations)).forObject
        id := by
  have same : (s.object? id).toList.flatMap (fun o => (s.judgement o).violations) =
      (t.object? id).toList.flatMap fun o => (t.judgement o).violations :=
    flatMap_object_congr object fun o ho o' hu => by
      rw [judgement_of_undue frame hu (plain o ho)]
  rw [Report.forObject_extend, Report.forObject_extend, filter_records s.owned_judgement hs,
    filter_records t.owned_judgement ht, same]

/-- A pass leaves an object its rule. -/
theorem exists_rule_of_object?_pass (h : (s.objects.map Tracked.id).Nodup) {o : Tracked}
    (ho : s.pass.1.object? id = some o) : ∃ a, s.object? id = some a ∧ o.rule = a.rule := by
  have found := object?_pass h id
  rw [ho] at found
  obtain ⟨a, ha, hu⟩ := Option.map_eq_some_iff.mp found.symm
  have rule : o.undue.rule = (s.outcome a).rule := congrArg Tracked.rule hu.symm
  exact ⟨a, ha, rule.trans (s.rule_readied a)⟩

theorem AlikeFor.object_pass (h : AlikeFor id s t) (hs : s.Orderly) (ht : t.Orderly)
    (plain : ∀ o, s.object? id = some o → o.rule.constraintNames = []) :
    (s.pass.1.object? id).map Tracked.undue = (t.pass.1.object? id).map Tracked.undue := by
  have frame : s.pass.1.frame = t.pass.1.frame := by rw [frame_pass, frame_pass, h.frame]
  have object := h.object
  rw [object?_pass hs.distinct, object?_pass ht.distinct]
  cases ho : s.object? id with
  | none =>
    rw [ho] at object
    rw [Option.map_eq_none_iff.mp object.symm, Option.map_none, Option.map_none]
  | some o =>
    rw [ho] at object
    obtain ⟨o', ho', hu⟩ := Option.map_eq_some_iff.mp object.symm
    have readied := h.readied (id_of_object? ho) hu.symm
    have judged := judgement_of_undue frame readied ((s.rule_readied o).symm ▸ plain o ho)
    rw [ho', Option.map_some, Option.map_some, outcome, outcome, readied, judged]

/-- **Sessions that are alike for an object stay so through a pass**, if its constraints look
nothing up. -/
theorem AlikeFor.pass (h : AlikeFor id s t) (hs : s.Orderly) (ht : t.Orderly)
    (plain : ∀ o, s.object? id = some o → o.rule.constraintNames = []) :
    AlikeFor id s.pass.1 t.pass.1 := by
  have frame : s.pass.1.frame = t.pass.1.frame := by rw [frame_pass, frame_pass, h.frame]
  have object := h.object_pass hs ht plain
  have plainAfter : ∀ o, s.pass.1.object? id = some o → o.rule.constraintNames = [] := by
    intro o ho
    obtain ⟨a, ha, rule⟩ := exists_rule_of_object?_pass hs.distinct ho
    rw [rule]
    exact plain a ha
  have queries : (s.object? id).toList.flatMap (fun o => (s.advanced o).queries) =
      (t.object? id).toList.flatMap fun o => (t.advanced o).queries :=
    flatMap_object_congr h.object fun o ho o' hu => (h.advanced (id_of_object? ho) hu).1
  have violations : (s.object? id).toList.flatMap (fun o => (s.advanced o).violations) =
      (t.object? id).toList.flatMap fun o => (t.advanced o).violations :=
    flatMap_object_congr h.object fun o ho o' hu => (h.advanced (id_of_object? ho) hu).2.1
  exact
    { frame
      object
      status := fun q hq => by
        rw [registry_pass, registry_pass, status?_prepare, status?_prepare, h.status q hq,
          filter_newQueries hs.distinct, filter_newQueries ht.distinct, hq, queries]
      inbox := by rw [inbox_pass, inbox_pass]
      permanent := by
        rw [permanent_pass, permanent_pass, Report.forObject_extend, Report.forObject_extend,
          h.permanent, filter_records s.owned_violations hs.distinct,
          filter_records t.owned_violations ht.distinct, violations]
      findings := by
        rw [findings_pass, findings_pass]
        exact forObject_judged frame (s.ids_pass ▸ hs.distinct) (t.ids_pass ▸ ht.distinct) object
          plainAfter }

/-! ## Reports -/

theorem forObject_report (s : Session) (id : String) :
    s.report.forObject id =
      (Report.extend ⟨s.permanent.forObject id⟩ (s.findings.forObject id)).records := by
  rw [report, Report.merge, Report.forObject_extend, Report.forObject_eq_filter s.findings]

theorem AlikeFor.report (h : AlikeFor id s t) : s.report.forObject id = t.report.forObject id := by
  rw [forObject_report, forObject_report, h.permanent, h.findings]

theorem AlikeFor.waitingVars (h : AlikeFor id s t) (hs : s.Orderly) (ht : t.Orderly) :
    s.waitingVars id = t.waitingVars id := by
  have test : (fun q : Query => q.object == id) = fun q => decide (q.object = id) := by
    funext q
    rw [Bool.eq_iff_iff, beq_iff_eq, decide_eq_true_iff]
  unfold Session.waitingVars
  rw [test, h.pending hs ht]

/-- How a life ends is recorded for its object. -/
theorem owned_ending (s : Session) : Owned s.ending Violation.object fun o => some o.id := by
  intro o v hv
  obtain ⟨_, _, rfl⟩ | ⟨_, _, rfl⟩ := exists_of_mem_ending hv
  · rfl
  · rfl

theorem ending_of_undue (hf : s.frame = t.frame) {o o' : Tracked} (hu : o.undue = o'.undue)
    (waiting : s.waitingVars o.id = t.waitingVars o.id) : s.ending o = t.ending o' := by
  rw [Tracked.eq_of_undue hu]
  unfold ending unanswered
  simp only [(frame_eq_iff.mp hf).1, waiting]
  rfl

/-- The last pass and the end of its life bring an object the same records. -/
theorem AlikeFor.finish (h : AlikeFor id s t) (hs : s.Orderly) (ht : t.Orderly)
    (plain : ∀ o, s.object? id = some o → o.rule.constraintNames = [])
    (hs' : s.pass.1.Orderly) (ht' : t.pass.1.Orderly) :
    s.finish.forObject id = t.finish.forObject id := by
  have after := h.pass hs ht plain
  have endings : (s.pass.1.object? id).toList.flatMap s.pass.1.ending =
      (t.pass.1.object? id).toList.flatMap t.pass.1.ending :=
    flatMap_object_congr after.object fun o ho o' hu =>
      ending_of_undue after.frame hu (id_of_object? ho ▸ after.waitingVars hs' ht')
  unfold Session.finish
  rw [Report.forObject_extend, Report.forObject_extend, after.report,
    filter_records s.pass.1.owned_ending hs'.distinct,
    filter_records t.pass.1.owned_ending ht'.distinct, endings]

/-! ## Runs -/

/-- The operation is about no other object than this one. -/
def Op.spares (id : String) (op : Op) : Bool := op.object?.all fun i => i == id

/-- The operations but those about other objects. -/
def purge (id : String) (ops : List Op) : List Op := ops.filter (Op.spares id)

/-- Sessions that are alike for an object stay so, but for operations about others. -/
theorem AlikeFor.perform (h : AlikeFor id s t) (hs : s.Orderly) (ht : t.Orderly)
    (plain : ∀ o, s.object? id = some o → o.rule.constraintNames = []) {op : Op}
    (hop : ∀ i, op.object? = some i → i = id) : AlikeFor id (s.perform op) (t.perform op) := by
  cases op with
  | resolveAll answer? => exact h.resolveAll hs ht answer?
  | pass => exact h.pass hs ht plain
  | _ => exact h.perform_own (congrArg some (hop _ rfl))

/-- **What is found of an object that looks nothing up does not depend on operations about
others.** -/
theorem alikeFor_run {settings : Settings} {rules : Rulebook} {subtyping : Subtyping}
    (h : start settings rules subtyping = .ok s) {ops : List Op}
    (plain : ∀ o, (s.run ops).object? id = some o → o.rule.constraintNames = []) :
    AlikeFor id (s.run ops) (s.run (purge id ops)) := by
  induction ops using List.reverseRecOn with
  | nil => exact alikeFor_self id s
  | append_singleton ops op ih =>
    have orderly := orderly_run h ops
    have orderly' := orderly_run h (purge id ops)
    have plainBefore : ∀ o, (s.run ops).object? id = some o → o.rule.constraintNames = [] := by
      intro o ho
      obtain ⟨o', ho', grown⟩ :=
        (s.run ops).keeps_perform op o (List.mem_of_find?_eq_some ho)
      rw [← run_concat] at ho'
      have found := (object?_eq_some_iff (orderly_run h (ops ++ [op])).distinct o').mpr ho'
      rw [← grown.rule]
      exact plain o' (by rw [← found, grown.id, id_of_object? ho])
    have alike := ih plainBefore
    rw [purge, List.filter_append, ← purge, run_concat]
    cases hspares : op.spares id with
    | true =>
      rw [List.filter_cons_of_pos hspares, List.filter_nil, run_concat]
      refine alike.perform orderly orderly' plainBefore fun i hi => ?_
      rw [Op.spares, hi] at hspares
      exact beq_iff_eq.mp hspares
    | false =>
      rw [List.filter_cons_of_neg (Bool.eq_false_iff.mp hspares), List.filter_nil,
        List.append_nil]
      refine (alikeFor_of_other orderly ?_ fun hc => ?_).trans alike
      · cases hi : op.object? with
        | none => simp [Op.spares, hi] at hspares
        | some i => rfl
      · simp [Op.spares, hc] at hspares

/-- **Visible facts are the only way from one object to another.** In any two runs with the same
settings for constraints and the same subtyping, objects that are seen alike under one rule are
judged alike if the same facts are visible under the names that the constraints look up. If they
look nothing up, operations about other objects change nothing of what is found of an object:
its states, bindings and pending constraints, its records, and its records at the end are those
of the run without them. -/
theorem found_of_visible {settings settings' : Settings} {rules rules' : Rulebook}
    {subtyping : Subtyping} {s s' : Session} (h : start settings rules subtyping = .ok s)
    (h' : start settings' rules' subtyping = .ok s')
    (same : settings.constraints = settings'.constraints) (ops ops' : List Op) :
    (∀ o o' : Tracked, o.rule = o'.rule → o.view = o'.view →
      (∀ name ∈ o.rule.constraintNames,
        (s.run ops).store.visible name = (s'.run ops').store.visible name) →
      (s.run ops).judgement o = (s'.run ops').judgement o') ∧
    ∀ id, (∀ o, (s.run ops).object? id = some o → o.rule.constraintNames = []) →
      let alone := s.run (purge id ops)
      ((s.run ops).object? id).map Tracked.undue = (alone.object? id).map Tracked.undue ∧
        (s.run ops).report.forObject id = alone.report.forObject id ∧
        (s.run ops).finish.forObject id = alone.finish.forObject id := by
  have framed {settings : Settings} {rules : Rulebook} {s : Session}
      (h : start settings rules subtyping = .ok s) (ops : List Op) :
      (s.run ops).settings = settings ∧ (s.run ops).subtyping = subtyping ∧
        (s.run ops).store.Agrees := by
    obtain ⟨unchanged, -, unchanged'⟩ := frame_eq_iff.mp (s.frame_run ops)
    rw [unchanged, unchanged']
    have agrees := agrees_run (store_start h ▸ FactStore.agrees_empty) ops
    rw [eq_of_start h] at agrees ⊢
    exact ⟨rfl, rfl, agrees⟩
  refine ⟨fun o o' hr hv visible => ?_, fun id plain => ?_⟩
  · obtain ⟨hset, hsub, agrees⟩ := framed h ops
    obtain ⟨hset', hsub', agrees'⟩ := framed h' ops'
    refine judgement_of_visible agrees agrees' ?_ (hsub.trans hsub'.symm) hr hv visible
    rw [hset, hset', same]
  · have alike := alikeFor_run h plain
    have pass_run (ops : List Op) : (s.run ops).pass.1 = s.run (ops ++ [Op.pass]) :=
      (s.run_concat ops .pass).symm
    refine ⟨alike.object, alike.report, alike.finish (orderly_run h ops)
      (orderly_run h (purge id ops)) plain ?_ ?_⟩
    · rw [pass_run]
      exact orderly_run h _
    · rw [pass_run]
      exact orderly_run h _

/-! ## A cipher beside another one -/

/-- Only AES is allowed. -/
def strictSession : Session := textSession "alg" (.member (.whole "alg" "String") ["AES"])

/-- Of two ciphers, one is for DES. -/
def besideOps : List Op :=
  [.track "d" "d@1" "Cipher", .track "c" "c@1" "Cipher",
   .observe "d" ⟨"2", ⟨"Cipher", "init", ["String"]⟩, "Cipher"⟩,
   .observe "c" ⟨"1", ⟨"Cipher", "init", ["String"]⟩, "Cipher"⟩, .pass,
   .supply ⟨"d", "2", "alg", .argument 0⟩ [⟨.constant (.text "AES"), none⟩],
   .supply ⟨"c", "1", "alg", .argument 0⟩ [⟨.constant (.text "DES"), none⟩], .pass]

/-- A code finds the key that it needs whenever it was generated, and a cipher is found for DES
with or without the other one. -/
theorem found_of_visible_codes :
    let early := keyOps ++ [Op.pass] ++ codeOps ++ [Op.pass]
    let late := codeOps ++ keyOps ++ [Op.pass, .pass]
    (start codeSession.settings codeSession.rules codeSession.subtyping = .ok codeSession ∧
      (codeSession.run early).store.visible "generated" = [[.object "k@1"]] ∧
      (codeSession.run late).store.visible "generated" = [[.object "k@1"]] ∧
      ∀ o o' : Tracked, o.rule = codeRule → o.rule = o'.rule → o.view = o'.view →
        (codeSession.run early).judgement o = (codeSession.run late).judgement o') ∧
    start strictSession.settings strictSession.rules strictSession.subtyping =
        .ok strictSession ∧
      (∀ o, (strictSession.run besideOps).object? "c" = some o → o.rule.constraintNames = []) ∧
      (purge "c" besideOps).length = 5 ∧
      (strictSession.run besideOps).report.forObject "c" =
        (strictSession.run (purge "c" besideOps)).report.forObject "c" ∧
      ((strictSession.run besideOps).report.forObject "c").map Violation.kind = [.constraint] := by
  intro early late
  have started : start codeSession.settings codeSession.rules codeSession.subtyping =
      .ok codeSession := rfl
  have started' : start strictSession.settings strictSession.rules strictSession.subtyping =
      .ok strictSession := rfl
  have first : (codeSession.run early).store.visible "generated" = [[.object "k@1"]] := by decide
  have second : (codeSession.run late).store.visible "generated" = [[.object "k@1"]] := by decide
  have plain : ∀ o, (strictSession.run besideOps).object? "c" = some o →
      o.rule.constraintNames = [] := by
    have names : ((strictSession.run besideOps).object? "c").map
        (fun o => o.rule.constraintNames) = some [] := by decide +kernel
    intro o ho
    rw [ho] at names
    exact Option.some.inj names
  refine ⟨⟨started, first, second, fun o o' hrule hr hv => ?_⟩, started', plain, by decide, ?_,
    by decide +kernel⟩
  · refine (found_of_visible started started rfl early late).1 o o' hr hv fun name hn => ?_
    rw [hrule] at hn
    rw [List.mem_singleton.mp hn, first, second]
  · exact ((found_of_visible started' started' rfl besideOps besideOps).2 "c" plain).2.1

end Session

end Misuse
