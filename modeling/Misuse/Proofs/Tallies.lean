import Misuse.Proofs.Course
import Misuse.Proofs.Integrity

/-!
# What passes count

The summaries of the passes of a run are added up (`summed`) and compared with what the session
holds in the end. An operation adds to what is held just what it counts, so a run does
(`along_eq`): calls are counted when they are applied (`calls_perform`), bindings when they are
received or bound at once (`bindings_perform`), facts when they are published or retracted
(`facts_perform`). Queries are counted when they become known, so those answered before anyone
asks are not (`exists_queries_run`).
-/

namespace Misuse

/-! ## Numbers added up over objects -/

namespace Tracked

/-- A number added up over objects. -/
def sumOver (f : Tracked → Nat) (os : List Tracked) : Nat := os.foldr (fun o n => f o + n) 0

variable (f g : Tracked → Nat)

theorem sumOver_append (os more : List Tracked) :
    sumOver f (os ++ more) = sumOver f os + sumOver f more := by
  induction os with
  | nil => exact (Nat.zero_add _).symm
  | cons o os ih =>
    change f o + sumOver f (os ++ more) = f o + sumOver f os + sumOver f more
    rw [ih, Nat.add_assoc]

theorem sumOver_add (os : List Tracked) :
    sumOver (fun o => f o + g o) os = sumOver f os + sumOver g os := by
  induction os with
  | nil => rfl
  | cons o os ih =>
    change f o + g o + sumOver (fun o => f o + g o) os = f o + sumOver f os + (g o + sumOver g os)
    rw [ih]
    omega

variable {f g}

/-- It depends on the numbers only. -/
theorem sumOver_eq_of_map {os more : List Tracked} (h : os.map f = more.map g) :
    sumOver f os = sumOver g more := by
  have numbers (f : Tracked → Nat) (os : List Tracked) :
      sumOver f os = (os.map f).foldr (fun m n => m + n) 0 := by
    rw [List.foldr_map]
    rfl
  rw [numbers, numbers, h]

theorem sumOver_eq_of_forall {os : List Tracked} (change : Tracked → Tracked)
    (h : ∀ o ∈ os, f (change o) = g o) : sumOver f (os.map change) = sumOver g os := by
  refine sumOver_eq_of_map ?_
  rw [List.map_map]
  exact List.map_congr_left h

/-- One object changes. -/
theorem sumOver_update (change : Tracked → Tracked) {o : Tracked} {os : List Tracked}
    (distinct : (os.map id).Nodup) (ho : o ∈ os) :
    sumOver f (os.map fun a => if a.id == o.id then change a else a) + f o =
      sumOver f os + f (change o) := by
  obtain ⟨before, after, rfl⟩ := List.append_of_mem ho
  have others : ∀ a ∈ before ++ after, a.id ≠ o.id := by
    rw [List.map_append, List.map_cons] at distinct
    have apart := (List.nodup_middle.mp distinct).notMem
    intro a ha hid
    exact apart (by rw [← List.map_append, ← hid]; exact List.mem_map_of_mem ha)
  have kept (as : List Tracked) (has : ∀ a ∈ as, a ∈ before ++ after) :
      sumOver f (as.map fun a => if a.id == o.id then change a else a) = sumOver f as := by
    refine sumOver_eq_of_forall _ fun a ha => ?_
    rw [if_neg]
    simpa using others a (has a ha)
  have own (b : Tracked) (as : List Tracked) : sumOver f (b :: as) = f b + sumOver f as := rfl
  rw [List.map_append, List.map_cons, sumOver_append, sumOver_append, own, own,
    kept before fun a ha => List.mem_append_left _ ha,
    kept after fun a ha => List.mem_append_right _ ha, beq_self_eq_true, if_pos rfl]
  omega

end Tracked

namespace Session

theorem total_eq (s : Session) (f : Tracked → Nat) : s.total f = Tracked.sumOver f s.objects := rfl

/-! ## Numbers added up along a run -/

/-- What the operations of a run count. -/
def along (s : Session) (count : Session → Op → Nat) : List Op → Nat
  | [] => 0
  | op :: ops => count s op + (s.perform op).along count ops

/-- A number of each pass. -/
def ofPass (f : PassSummary → Nat) (s : Session) : Op → Nat
  | .pass => f s.pass.2
  | _ => 0

/-- A number of the passes of a run, added up. -/
def summed (s : Session) (f : PassSummary → Nat) (ops : List Op) : Nat := s.along (ofPass f) ops

/-- Each binding that finds its place free at once. -/
def ofBind (s : Session) : Op → Nat
  | .bind id b =>
    match s.bind id b with
    | .ok (_, true) => 1
    | _ => 0
  | _ => 0

/-- The bindings that a run adds to objects at once. -/
def boundAtOnce (s : Session) (ops : List Op) : Nat := s.along ofBind ops

variable {s : Session} {calls : String → List Call}

theorem ofPass_of_ne (f : PassSummary → Nat) {op : Op} (hop : op ≠ .pass) : ofPass f s op = 0 := by
  cases op with
  | pass => exact absurd rfl hop
  | _ => rfl

theorem along_append (count : Session → Op → Nat) (ops more : List Op) :
    s.along count (ops ++ more) = s.along count ops + (s.run ops).along count more := by
  induction ops generalizing s with
  | nil => exact (Nat.zero_add _).symm
  | cons op ops ih =>
    rw [List.cons_append, along, ih, along, Nat.add_assoc]
    rfl

theorem along_add (count other : Session → Op → Nat) (ops : List Op) :
    s.along (fun s op => count s op + other s op) ops =
      s.along count ops + s.along other ops := by
  induction ops generalizing s with
  | nil => rfl
  | cons op ops ih =>
    rw [along, ih, along, along]
    omega

/-- What every operation adds to a number, a run adds up. -/
theorem along_eq (held : Session → Nat) {count : Session → Op → Nat}
    (step : ∀ (s : Session) (op : Op), (s.objects.map Tracked.id).Nodup →
      held (s.perform op) = held s + count s op) (c : s.Chronicle calls) (ops : List Op) :
    held (s.run ops) = held s + s.along count ops := by
  induction ops generalizing s calls with
  | nil => rfl
  | cons op ops ih =>
    have rest : held ((s.perform op).run ops) =
        held (s.perform op) + (s.perform op).along count ops := ih (c.run [op])
    rw [run_cons, rest, step s op c.distinct, along, Nat.add_assoc]

/-! ## Calls -/

/-- A pass counts the calls it applies. -/
theorem calls_perform (s : Session) (op : Op) :
    (s.perform op).total (fun o => o.calls.length) =
      s.total (fun o => o.calls.length) + ofPass PassSummary.callsApplied s op := by
  by_cases hop : op = .pass
  · subst hop
    have applied : s.pass.1.objects.map (fun o => o.calls.length) =
        s.objects.map fun o => o.calls.length + o.queued.length := by
      have := congrArg (List.map fun o => o.calls.length) s.settled_pass
      simpa [List.map_map, Function.comp_def, Tracked.settled, advanced,
        Tracked.applyQueued_eq] using this
    exact (Tracked.sumOver_eq_of_map applied).trans (Tracked.sumOver_add _ _ _)
  · obtain ⟨change, fresh, between⟩ := s.between_perform hop
    have none : Tracked.sumOver (fun o => o.calls.length) fresh = 0 := by
      rcases between.fresh with rfl | ⟨id, self, _, rule, -, -, rfl⟩ <;> rfl
    rw [total_eq, total_eq, between.objects, Tracked.sumOver_append, none,
      ofPass_of_ne _ hop]
    refine Tracked.sumOver_eq_of_forall change fun o ho => ?_
    rw [(between.queues o ho).calls]

/-! ## Bindings -/

/-- The number of the bindings of all objects. -/
def bound (s : Session) : Nat := s.total fun o => o.bindings.length

/-- A binding that finds its place free is counted. -/
theorem bound_bind {t : Session} {added : Bool} (h : (s.objects.map Tracked.id).Nodup)
    {id : String} {b : Binding} (hb : s.bind id b = .ok (t, added)) :
    t.bound = s.bound + if added then 1 else 0 := by
  unfold Session.bind at hb
  cases ho : s.object? id with
  | none => simp [ho] at hb
  | some o =>
    simp only [ho, Except.ok.injEq, Prod.mk.injEq] at hb
    obtain ⟨rfl, rfl⟩ := hb
    have hmem : o ∈ s.objects := List.mem_of_find?_eq_some ho
    obtain rfl : o.id = id := by simpa using List.find?_some ho
    have changed := Tracked.sumOver_update (f := fun o => o.bindings.length) (fun o => o.bind b) h
      hmem
    have grown : (o.bind b).bindings.length =
        o.bindings.length + if !o.hasPlace b then 1 else 0 := by
      rw [Tracked.bindings_bind]
      cases o.hasPlace b <;> simp
    have updated : (s.update o.id fun o => o.bind b).bound =
        Tracked.sumOver (fun o => o.bindings.length)
          (s.objects.map fun a => if a.id == o.id then a.bind b else a) := rfl
    have before : s.bound = Tracked.sumOver (fun o => o.bindings.length) s.objects := rfl
    omega

/-- Each delivery is counted that finds its place free. -/
theorem bound_deliver (h : (s.objects.map Tracked.id).Nodup) (n : Nat) (d : Delivery String) :
    (deliver (s, n) d).1.bound + n = s.bound + (deliver (s, n) d).2 := by
  unfold deliver
  cases hb : s.bind d.target d.binding with
  | error fault => simp only [hb]
  | ok result =>
    obtain ⟨t, added⟩ := result
    have bound := bound_bind h hb
    simp only [hb]
    cases added <;> simp only [Bool.false_eq_true, ↓reduceIte] at bound ⊢ <;> omega

theorem bound_foldl_deliver (h : (s.objects.map Tracked.id).Nodup) (n : Nat)
    (ds : List (Delivery String)) :
    (ds.foldl deliver (s, n)).1.bound + n = s.bound + (ds.foldl deliver (s, n)).2 := by
  induction ds generalizing s n with
  | nil => rfl
  | cons d ds ih =>
    have first := bound_deliver h n d
    have ids : ((deliver (s, n) d).1.objects.map Tracked.id).Nodup := by
      rw [fst_deliver, ids_update s d.target fun o => by rw [Tracked.bind_eq]]
      exact h
    have rest := ih ids (deliver (s, n) d).2
    rw [List.foldl_cons, ← Prod.eta (deliver (s, n) d)]
    omega

theorem bound_drain (h : (s.objects.map Tracked.id).Nodup) :
    s.drain.1.bound = s.bound + s.drain.2 :=
  bound_foldl_deliver (s := { s with inbox := [] }) h 0 s.inbox

/-- What is settled of the objects tells their bindings. -/
theorem bound_eq_of_settled {t : Session}
    (h : t.objects.map Tracked.settled = s.objects.map Tracked.settled) : t.bound = s.bound := by
  refine Tracked.sumOver_eq_of_map ?_
  have := congrArg (List.map fun o => o.bindings.length) h
  simpa [List.map_map, Function.comp_def, Tracked.settled] using this

/-- A pass counts the bindings that it hands to objects. -/
theorem bound_pass (h : (s.objects.map Tracked.id).Nodup) :
    s.pass.1.bound = s.bound + s.pass.2.bindingsReceived := by
  let early := s.counted.drain
  let asked := early.1.applyCalls.1.askAll early.1.applyCalls.2
  have ids : asked.1.objects.map Tracked.id = s.objects.map Tracked.id :=
    s.ids_stages asked.1 (.tail _ (.tail _ (.head _)))
  -- bindings come before the calls, and with the answers that are known after them
  have received : early.1.bound = s.bound + early.2 := bound_drain (s := s.counted) h
  have called : asked.1.bound = early.1.bound := by
    simp only [asked, askAll_fst]
    refine Tracked.sumOver_eq_of_map ?_
    simp [applyCalls, Tracked.applyQueued_eq]
  have answered : asked.1.drain.1.bound = asked.1.bound + asked.1.drain.2 :=
    bound_drain (ids ▸ h)
  have left : s.pass.1.bound = asked.1.drain.1.bound :=
    bound_eq_of_settled ((settled_judge _).trans (settled_publish _))
  have counted : s.pass.2.bindingsReceived = early.2 + asked.1.drain.2 := by rw [pass_eq]
  omega

theorem bindings_perform (s : Session) (op : Op) (h : (s.objects.map Tracked.id).Nodup) :
    (s.perform op).bound =
      s.bound + (ofPass PassSummary.bindingsReceived s op + ofBind s op) := by
  cases op with
  | track id self className =>
    simp only [perform, track]
    split
    · rfl
    · split
      · rfl
      · exact Tracked.sumOver_append _ _ _
  | observe id call =>
    simp only [perform, observe]
    split
    · refine Tracked.sumOver_eq_of_forall _ fun o _ => ?_
      split <;> rfl
    · rfl
  | bind id b =>
    simp only [perform, ofPass, ofBind, Nat.zero_add]
    cases hb : s.bind id b with
    | error fault => rfl
    | ok result =>
      obtain ⟨t, added⟩ := result
      have := bound_bind h hb
      cases added <;> exact this
  | supply q values => rfl
  | resolveAll answer? =>
    obtain ⟨registry, inbox, he⟩ := s.resolveAll_eq answer?
    simp only [perform, he]
    rfl
  | pass => exact bound_pass h

/-! ## Facts -/

/-- A pass counts the facts that it establishes and those that it retracts. -/
theorem facts_perform (s : Session) (op : Op) :
    (s.perform op).store.size = s.store.size +
      (ofPass PassSummary.factsPublished s op + ofPass PassSummary.retractions s op) := by
  by_cases hop : op = .pass
  · subst hop
    obtain ⟨published, retracted⟩ := s.counts_pass
    simp only [perform, ofPass, published, retracted, FactStore.size, log_pass, List.length_append,
      Nat.add_assoc]
  · rw [s.store_perform hop, ofPass_of_ne _ hop, ofPass_of_ne _ hop, Nat.add_zero]

/-! ## Queries -/

/-- **Asking counts the queries that become known**, each once. -/
theorem exists_queries_askAll (s : Session) (qs : List Query) (n : Nat) :
    ∃ fresh : List Query, fresh.Nodup ∧
      (∀ q, q ∈ fresh ↔ q ∈ qs ∧ s.registry.knows q = false) ∧
      (qs.foldl askCounting (s, n)).2 = n + fresh.length := by
  induction qs generalizing s n with
  | nil => exact ⟨[], List.nodup_nil, by simp, rfl⟩
  | cons q qs ih =>
    have knows (p : Query) :
        (s.ask q).registry.knows p = (decide (q = p) || s.registry.knows p) := by
      unfold Registry.knows
      rw [status?_ask]
      by_cases hqp : q = p <;> simp [hqp]
    cases hq : s.registry.knows q with
    | true =>
      obtain ⟨fresh, nodup, hfresh, hcount⟩ := ih (s.ask q) n
      refine ⟨fresh, nodup, fun p => ?_, ?_⟩
      · rw [hfresh, knows, List.mem_cons]
        by_cases hqp : q = p
        · subst hqp
          simp [hq]
        · simp [hqp, Ne.symm hqp]
      · simpa [askCounting, Registry.snd_request, hq] using hcount
    | false =>
      obtain ⟨fresh, nodup, hfresh, hcount⟩ := ih (s.ask q) (n + 1)
      refine ⟨q :: fresh, List.nodup_cons.mpr ⟨?_, nodup⟩, fun p => ?_, ?_⟩
      · rw [hfresh, knows]
        simp
      · rw [List.mem_cons, hfresh, knows, List.mem_cons]
        by_cases hqp : q = p
        · subst hqp
          simp [hq]
        · simp [hqp, Ne.symm hqp]
      · rw [List.foldl_cons, askCounting, Registry.snd_request, hq]
        simpa [Nat.add_comm, Nat.add_left_comm] using hcount

/-- At some point of the run the query had an answer and no object had asked it. -/
def AnsweredUnasked (s : Session) (ops : List Op) (q : Query) : Prop :=
  ∃ before, before <+: ops ∧ ((s.answers before).first? q).isSome = true ∧ ¬(s.run before).Asks q

theorem answeredUnasked_concat_iff (ops : List Op) (op : Op) (q : Query) :
    s.AnsweredUnasked (ops ++ [op]) q ↔
      s.AnsweredUnasked ops q ∨
        ((s.answers (ops ++ [op])).first? q).isSome = true ∧ ¬(s.run (ops ++ [op])).Asks q := by
  constructor
  · rintro ⟨before, hbefore, answered, unasked⟩
    rcases List.prefix_concat_iff.mp hbefore with rfl | hbefore
    · exact .inr ⟨answered, unasked⟩
    · exact .inl ⟨before, hbefore, answered, unasked⟩
  · rintro (⟨before, hbefore, answered, unasked⟩ | ⟨answered, unasked⟩)
    · exact ⟨before, hbefore.trans (List.prefix_append ..), answered, unasked⟩
    · exact ⟨_, List.prefix_rfl, answered, unasked⟩

/-- The objects of a session ask the same queries as before. -/
theorem asks_iff_of_ne_pass (s : Session) {op : Op} (hop : op ≠ .pass) (q : Query) :
    (s.perform op).Asks q ↔ s.Asks q := by
  obtain ⟨change, fresh, between⟩ := s.between_perform hop
  have matcher : (s.perform op).matcher = s.matcher := matcher_eq_of_frame (s.frame_perform op)
  have emitted : ∀ o ∈ s.objects, (change o).emitted s.matcher = o.emitted s.matcher := by
    intro o ho
    have queues := between.queues o ho
    rw [Tracked.emitted, Tracked.emitted, queues.id, queues.rule, queues.calls]
  unfold Asks
  rw [matcher, between.objects]
  constructor
  · rintro ⟨o', ho', hq⟩
    rcases List.mem_append.mp ho' with ho' | ho'
    · obtain ⟨o, ho, rfl⟩ := List.mem_map.mp ho'
      exact ⟨o, ho, emitted o ho ▸ hq⟩
    · rcases between.fresh with rfl | ⟨id, self, _, rule, -, -, rfl⟩
      · cases ho'
      · rw [List.mem_singleton.mp ho'] at hq
        cases hq
  · rintro ⟨o, ho, hq⟩
    exact ⟨change o, List.mem_append_left _ (List.mem_map_of_mem ho), (emitted o ho).symm ▸ hq⟩

/-- A pass asks the queries of the calls it applies. -/
theorem asks_pass_iff (c : s.Chronicle calls) (q : Query) :
    s.pass.1.Asks q ↔ s.Asks q ∨ q ∈ s.newQueries := by
  have matcher : s.pass.1.matcher = s.matcher := matcher_eq_of_frame s.frame_pass
  have same (os : List Tracked) : (∃ o ∈ os, q ∈ o.emitted s.matcher) ↔
      ∃ o ∈ os.map Tracked.settled, q ∈ o.emitted s.matcher := by
    simp only [List.mem_map, exists_exists_and_eq_and]
    rfl
  unfold Asks
  rw [matcher, same, settled_pass_prepare, ← same, objects_prepare c.distinct, newQueries]
  simp only [List.mem_map, exists_exists_and_eq_and, List.mem_flatMap]
  constructor
  · rintro ⟨o, ho, hq⟩
    exact ((mem_emitted_readied c ho q).mp hq).imp (fun hq => ⟨o, ho, hq⟩) fun hq => ⟨o, ho, hq⟩
  · rintro (⟨o, ho, hq⟩ | ⟨o, ho, hq⟩)
    · exact ⟨o, ho, (mem_emitted_readied c ho q).mpr (.inl hq)⟩
    · exact ⟨o, ho, (mem_emitted_readied c ho q).mpr (.inr hq)⟩

/-- A query is known if it is asked or answered. -/
theorem Ledger.knows_iff {answers : Answers} {direct : String → Binding → Prop}
    (h : s.Ledger answers direct) (q : Query) :
    s.registry.knows q = true ↔ s.Asks q ∨ (answers.first? q).isSome = true := by
  unfold Registry.knows
  constructor
  · intro known
    obtain ⟨st, hst⟩ := Option.isSome_iff_exists.mp known
    cases st with
    | waiting ls => exact .inl (h.waiting q ls hst)
    | answered values => exact .inr (Option.isSome_of_eq_some ((h.known q values).mp hst))
  · rintro (⟨o, ho, hq⟩ | answered)
    · exact (h.objects o ho).asked q hq
    · obtain ⟨values, hvalues⟩ := Option.isSome_iff_exists.mp answered
      exact Option.isSome_of_eq_some ((h.known q values).mpr hvalues)

/-- A pass counts the queries of its calls that become known. -/
theorem exists_queries_pass (s : Session) :
    ∃ fresh : List Query, fresh.Nodup ∧
      (∀ q, q ∈ fresh ↔ q ∈ s.newQueries ∧ s.registry.knows q = false) ∧
      s.pass.2.queriesAsked = fresh.length := by
  let called := s.counted.drain.1.applyCalls
  have registry : called.1.registry = s.registry := by
    simp only [called, drain_fst]
    rfl
  have queries : called.2 = s.newQueries := by
    simp only [called, drain_fst, applyCalls, List.map_map, List.flatMap_map]
    rfl
  obtain ⟨fresh, nodup, hfresh, hcount⟩ := exists_queries_askAll called.1 called.2 0
  refine ⟨fresh, nodup, fun q => ?_, ?_⟩
  · rw [hfresh, registry, queries]
  · rw [pass_eq]
    exact hcount.trans (Nat.zero_add _)

/-- **Passes count the queries that are asked before they are answered**, each once. -/
theorem exists_queries_run (c : s.Chronicle calls) (h : s.Ledger [] fun _ _ => False)
    (unasked : ∀ q, ¬s.Asks q) (ops : List Op) :
    ∃ asked : List Query, asked.Nodup ∧
      (∀ q, q ∈ asked ↔ (s.run ops).Asks q ∧ ¬s.AnsweredUnasked ops q) ∧
      s.summed PassSummary.queriesAsked ops = asked.length := by
  induction ops using List.reverseRecOn with
  | nil => exact ⟨[], List.nodup_nil, fun q => by simp [unasked q], rfl⟩
  | append_singleton ops op ih =>
    obtain ⟨asked, nodup, hasked, hcount⟩ := ih
    have sum : s.summed PassSummary.queriesAsked (ops ++ [op]) =
        asked.length + ofPass PassSummary.queriesAsked (s.run ops) op := by
      rw [summed, along_append, ← hcount]
      rfl
    simp only [answeredUnasked_concat_iff, run_concat]
    by_cases hop : op = .pass
    · subst hop
      obtain ⟨fresh, nodup', hfresh, hnew⟩ := (s.run ops).exists_queries_pass
      have ledger := h.run c ops
      have answers : s.answers (ops ++ [Op.pass]) = s.answers ops := by
        rw [answers_append]
        exact List.append_nil _
      have unknown : ∀ q, (s.run ops).registry.knows q = false ↔
          ¬(s.run ops).Asks q ∧ ((s.answers ops).first? q).isSome = false := by
        intro q
        rw [← Bool.not_eq_true, ledger.knows_iff, List.nil_append, not_or, Bool.not_eq_true]
      refine ⟨asked ++ fresh, ?_, fun q => ?_, ?_⟩
      · refine List.nodup_append.mpr ⟨nodup, nodup', ?_⟩
        rintro q hq _ hq' rfl
        exact ((unknown q).mp ((hfresh q).mp hq').2).1 ((hasked q).mp hq).1
      · -- a query that is not asked until this pass counts if it has no answer by then
        rw [List.mem_append, hasked, hfresh, unknown, answers]
        change _ ↔ (s.run ops).pass.1.Asks q ∧
          ¬(s.AnsweredUnasked ops q ∨ _ ∧ ¬(s.run ops).pass.1.Asks q)
        rw [asks_pass_iff (c.run ops)]
        have early (hasks : ¬(s.run ops).Asks q)
            (answered : ((s.answers ops).first? q).isSome = true) : s.AnsweredUnasked ops q :=
          ⟨ops, List.prefix_rfl, answered, hasks⟩
        have late (h : s.AnsweredUnasked ops q) : ((s.answers ops).first? q).isSome = true := by
          obtain ⟨before, ⟨more, rfl⟩, answered, -⟩ := h
          obtain ⟨values, hvalues⟩ := Option.isSome_iff_exists.mp answered
          rw [answers_append, Answers.first?_append_of_some hvalues]
          rfl
        by_cases hasks : (s.run ops).Asks q
        · simp [hasks]
        · cases answered : ((s.answers ops).first? q).isSome with
          | true => simp [hasks, early hasks answered]
          | false =>
            have : ¬s.AnsweredUnasked ops q := fun h => by
              rw [late h] at answered
              cases answered
            simp [hasks, this]
      · rw [sum, List.length_append, ← hnew]
        rfl
    · refine ⟨asked, nodup, fun q => ?_, by rw [sum, ofPass_of_ne _ hop, Nat.add_zero]⟩
      rw [hasked, asks_iff_of_ne_pass _ hop]
      by_cases hasks : (s.run ops).Asks q <;> simp [hasks]

end Session

end Misuse
