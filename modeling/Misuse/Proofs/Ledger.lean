import Mathlib.Data.List.Nodup
import Misuse.Proofs.Asking
import Misuse.Proofs.Places

/-!
# Where answers are

An answer goes from the registry to the listeners of its query, from there to the inbox, and
with the next pass to the object that asked. `Ledger` says where every answer is: it relates
what a run has answered, what the registry knows, what lies in the inbox and what is bound.
Each operation keeps it (`Ledger.perform`), and so does a run (`Ledger.run`).
-/

namespace Misuse

/-! ## The invariant -/

/-- What an object has asked and what it holds, told by the answers so far. `direct` tells
which bindings may have come without a query. -/
structure Tracked.Accounted (m : Matcher) (status? : Query → Option (Registry.Status String))
    (inbox : List (Delivery String)) (answers : Answers) (direct : Binding → Prop)
    (o : Tracked) : Prop where
  bound : ∀ b ∈ o.bindings, direct b ∨
    ∃ q ∈ o.emitted m, ∃ values, answers.first? q = some values ∧ b = q.bind values
  asked : ∀ q ∈ o.emitted m, (status? q).isSome = true
  delivered : ∀ q ∈ o.emitted m, ∀ values, answers.first? q = some values →
    o.hasPlace (q.bind values) = true ∨ ⟨q.object, q.bind values⟩ ∈ inbox
  placed : o.Placed

namespace Session

/-- Some tracked object has asked the query. -/
def Asks (s : Session) (q : Query) : Prop := ∃ o ∈ s.objects, q ∈ o.emitted s.matcher

/-- Where every answer is. -/
structure Ledger (s : Session) (answers : Answers) (direct : String → Binding → Prop) :
    Prop where
  known : ∀ q values, s.registry.status? q = some (.answered values) ↔
    answers.first? q = some values
  waiting : ∀ q ls, s.registry.status? q = some (.waiting ls) → s.Asks q
  heard : ∀ q, Registry.Heard q (s.registry.status? q)
  inbox : ∀ d ∈ s.inbox, ∃ q values, s.Asks q ∧ answers.first? q = some values ∧
    d = ⟨q.object, q.bind values⟩
  objects : ∀ o ∈ s.objects,
    o.Accounted s.matcher s.registry.status? s.inbox answers (direct o.id)

variable {s t : Session} {answers : Answers} {direct direct' : String → Binding → Prop}

theorem ledger_start {settings : Settings} {rules : Rulebook} {subtyping : Subtyping}
    (h : start settings rules subtyping = .ok s) : s.Ledger [] fun _ _ => False := by
  rw [eq_of_start h]
  refine ⟨?_, ?_, ?_, ?_, ?_⟩ <;>
    simp [Registry.empty, Registry.status?, Registry.Heard, Answers.first?]

/-- An object that asks a query is the object of the query. -/
theorem mem_of_asks (hdistinct : (s.objects.map Tracked.id).Nodup) {q : Query} (h : s.Asks q)
    {o : Tracked} (ho : o ∈ s.objects) (hq : q.object = o.id) : q ∈ o.emitted s.matcher := by
  obtain ⟨a, ha, hqa⟩ := h
  have hid : a.id = o.id := (Tracked.object_of_mem_emitted hqa).symm.trans hq
  rwa [List.inj_on_of_nodup_map hdistinct ha ho hid] at hqa

/-- What is bound so far may count as bound directly. -/
theorem Ledger.rebase (h : s.Ledger answers direct)
    (hd : ∀ o ∈ s.objects, ∀ b ∈ o.bindings, direct o.id b → direct' o.id b) :
    s.Ledger answers direct' :=
  { h with
    objects := fun o ho =>
      { h.objects o ho with
        bound := fun b hb => ((h.objects o ho).bound b hb).imp_left (hd o ho b hb) } }

/-- What an object holds at some point of a run. -/
def Holds (s : Session) (id : String) (b : Binding) : Prop :=
  ∃ o ∈ s.objects, o.id = id ∧ b ∈ o.bindings

theorem Ledger.holds (h : s.Ledger answers direct) : s.Ledger answers s.Holds :=
  h.rebase fun o ho _ hb _ => ⟨o, ho, rfl, hb⟩

/-- Where nothing is answered or delivered, it is enough to look at the objects. -/
theorem Ledger.of_same (h : s.Ledger answers direct) (hregistry : t.registry = s.registry)
    (hinbox : t.inbox = s.inbox) (hasks : ∀ q, s.Asks q → t.Asks q)
    (hobjects : ∀ o ∈ t.objects,
      o.Accounted t.matcher s.registry.status? s.inbox answers (direct' o.id)) :
    t.Ledger answers direct' where
  known := hregistry ▸ h.known
  waiting q ls hls := hasks q (h.waiting q ls (hregistry ▸ hls))
  heard := hregistry ▸ h.heard
  inbox d hd := by
    obtain ⟨q, values, asks, rest⟩ := h.inbox d (hinbox ▸ hd)
    exact ⟨q, values, hasks q asks, rest⟩
  objects := by
    rw [hregistry, hinbox]
    exact hobjects

/-! ## Giving answers -/

theorem status?_supply (s : Session) (q : Query) (values : List Value) (p : Query) :
    (s.supply q values).1.registry.status? p =
      if q = p then some (Registry.answeredStatus values (s.registry.status? q))
      else s.registry.status? p :=
  Registry.status?_resolve s.registry q p values

/-- No query begins to wait because of an answer. -/
theorem waiting_of_supply {q p : Query} {values : List Value} {ls : List String}
    (h : (s.supply q values).1.registry.status? p = some (.waiting ls)) :
    s.registry.status? p = some (.waiting ls) := by
  rw [status?_supply] at h
  split at h
  · unfold Registry.answeredStatus at h
    split at h <;> cases h
  · exact h

/-- A query that is not known to be answered has no answer. -/
theorem Ledger.first?_eq_none (h : s.Ledger answers direct) {q : Query}
    (hst : ∀ values, s.registry.status? q ≠ some (.answered values)) : answers.first? q = none := by
  rw [Option.eq_none_iff_forall_ne_some]
  exact fun values hk => hst values ((h.known q values).mpr hk)

/-- The first answer is taken down, and no other. -/
theorem Ledger.known_supply (h : s.Ledger answers direct) (q : Query) (values : List Value)
    (p : Query) (known : List Value) :
    (s.supply q values).1.registry.status? p = some (.answered known) ↔
      (answers ++ [(q, values)]).first? p = some known := by
  rw [status?_supply, Answers.first?_append, Answers.first?_singleton]
  by_cases hp : q = p
  · subst hp
    rw [if_pos rfl, if_pos rfl]
    cases hst : s.registry.status? q with
    | none => simp [Registry.answeredStatus, h.first?_eq_none (q := q) (by simp [hst])]
    | some st =>
      cases st with
      | waiting ls => simp [Registry.answeredStatus, h.first?_eq_none (q := q) (by simp [hst])]
      | answered already => simp [Registry.answeredStatus, (h.known q already).mp hst]
  · simp [hp, h.known p known]

/-- An answer is delivered to the object that asked. -/
theorem Ledger.eq_of_mem_resolve (h : s.Ledger answers direct) {q : Query} {values : List Value}
    {d : Delivery String} (hd : d ∈ (s.registry.resolve q values).2.1) :
    d = ⟨q.object, q.bind values⟩ := by
  obtain ⟨ls, hls, hl, hb⟩ := Registry.snd_resolve s.registry q values hd
  cases d
  simp only at hl hb
  rw [hb, (h.heard q ls hls).2 _ hl]

/-- An answer goes to the object that waits for it. -/
theorem Ledger.inbox_supply (h : s.Ledger answers direct) (q : Query) (values : List Value)
    {d : Delivery String} (hd : d ∈ (s.supply q values).1.inbox) :
    ∃ p known, s.Asks p ∧ (answers ++ [(q, values)]).first? p = some known ∧
      d = ⟨p.object, p.bind known⟩ := by
  have inbox : (s.supply q values).1.inbox = s.inbox ++ (s.registry.resolve q values).2.1 := rfl
  rw [inbox] at hd
  rcases List.mem_append.mp hd with hd | hd
  · obtain ⟨p, known, hasks, hk, rfl⟩ := h.inbox d hd
    exact ⟨p, known, hasks, Answers.first?_append_of_some hk _, rfl⟩
  · obtain ⟨ls, hls, -, -⟩ := Registry.snd_resolve s.registry q values hd
    refine ⟨q, values, h.waiting q ls hls, ?_, h.eq_of_mem_resolve hd⟩
    rw [Answers.first?_append, h.first?_eq_none (by simp [hls]), Answers.first?_singleton,
      if_pos rfl]
    rfl

/-- The first answer to a query of an object is held, or on its way. -/
theorem Ledger.delivered_supply (h : s.Ledger answers direct) (q : Query) (values : List Value)
    {o : Tracked} (ho : o ∈ s.objects) {p : Query} (hp : p ∈ o.emitted s.matcher)
    {known : List Value} (hk : (answers ++ [(q, values)]).first? p = some known) :
    o.hasPlace (p.bind known) = true ∨
      ⟨p.object, p.bind known⟩ ∈ s.inbox ++ (s.registry.resolve q values).2.1 := by
  rw [List.mem_append]
  rw [Answers.first?_append] at hk
  cases hfirst : answers.first? p with
  | some already =>
    rw [hfirst] at hk
    cases hk
    exact ((h.objects o ho).delivered p hp known hfirst).imp_right .inl
  | none =>
    rw [hfirst, Answers.first?_singleton] at hk
    by_cases hpq : q = p
    · subst hpq
      rw [if_pos rfl] at hk
      cases hk
      -- the query is known and has no answer yet, so its object is listening
      obtain ⟨st, hst⟩ := Option.isSome_iff_exists.mp ((h.objects o ho).asked q hp)
      cases st with
      | waiting ls =>
        exact .inr (.inr (Registry.mem_snd_resolve hst (h.heard q ls hst).1 values))
      | answered already =>
        rw [(h.known q already).mp hst] at hfirst
        cases hfirst
    · rw [if_neg hpq] at hk
      cases hk

theorem Ledger.supply (h : s.Ledger answers direct) (q : Query) (values : List Value) :
    (s.supply q values).1.Ledger (answers ++ [(q, values)]) direct where
  known := h.known_supply q values
  waiting p ls hls := h.waiting p ls (waiting_of_supply hls)
  heard p ls hls := h.heard p ls (waiting_of_supply hls)
  inbox _ hd := h.inbox_supply q values hd
  objects o ho :=
    { bound := by
        intro b hb
        refine ((h.objects o ho).bound b hb).imp_right ?_
        rintro ⟨p, hp, known, hk, rfl⟩
        exact ⟨p, hp, known, Answers.first?_append_of_some hk _, rfl⟩
      asked := by
        intro p hp
        rw [status?_supply]
        split
        · rfl
        · exact (h.objects o ho).asked p hp
      delivered := fun _ hp _ hk => h.delivered_supply q values ho hp hk
      placed := (h.objects o ho).placed }

theorem Ledger.supplyAll (h : s.Ledger answers direct) (more : Answers) :
    (s.supplyAll more).Ledger (answers ++ more) direct := by
  induction more generalizing s answers with
  | nil => simpa [Session.supplyAll] using h
  | cons a more ih =>
    have := ih (h.supply a.1 a.2)
    simpa [Session.supplyAll, List.append_assoc] using this

/-! ## Tracking, observing and binding -/

/-- Calls may be queued with an object, and values bound to it. -/
theorem Ledger.update (h : s.Ledger answers direct) (id : String) {f : Tracked → Tracked}
    (hd : ∀ i b, direct i b → direct' i b)
    (hid : ∀ o, (f o).id = o.id) (hemitted : ∀ m o, (f o).emitted m = o.emitted m)
    (hgrows : ∀ o, o.bindings <+: (f o).bindings)
    (hbound : ∀ o, o.id = id → ∀ b ∈ (f o).bindings, b ∈ o.bindings ∨ direct' o.id b)
    (hplaced : ∀ o, o.Placed → (f o).Placed) :
    (s.update id f).Ledger answers direct' := by
  refine h.of_same rfl rfl ?_ fun o' ho' => ?_
  · rintro q ⟨o, ho, hq⟩
    refine ⟨_, List.mem_map_of_mem ho, ?_⟩
    split
    · exact (hemitted s.matcher o).symm ▸ hq
    · exact hq
  · obtain ⟨o, ho, rfl⟩ := List.mem_map.mp ho'
    have before := h.objects o ho
    have widened : ∀ {b}, b ∈ o.bindings → direct' o.id b ∨ ∃ q ∈ o.emitted s.matcher,
        ∃ values, answers.first? q = some values ∧ b = q.bind values :=
      fun hb => (before.bound _ hb).imp_left (hd _ _)
    split
    next hc =>
      have emitted := hemitted s.matcher o
      refine ⟨fun b hb => ?_, emitted.symm ▸ before.asked, fun q hq values hfirst => ?_,
        hplaced o before.placed⟩
      · rw [hid, show (f o).emitted (s.update id f).matcher = o.emitted s.matcher from emitted]
        exact (hbound o (beq_iff_eq.mp hc) b hb).elim widened .inl
      · exact (before.delivered q (emitted ▸ hq) values hfirst).imp_left
          (Tracked.hasPlace_of_prefix _ (hgrows o))
    next => exact { before with bound := fun _ => widened }

/-- An object that has just been tracked has asked nothing and holds nothing. -/
theorem Ledger.track (h : s.Ledger answers direct) (id self : String) (rule : Rule) :
    ({ s with objects := s.objects ++ [.start id self rule] } : Session).Ledger answers direct := by
  refine h.of_same rfl rfl ?_ fun o ho => ?_
  · rintro q ⟨o, ho, hq⟩
    exact ⟨o, List.mem_append_left _ ho, hq⟩
  · rcases List.mem_append.mp ho with ho | ho
    · exact h.objects o ho
    · rw [List.mem_singleton.mp ho]
      exact ⟨nofun, nofun, nofun, List.nodup_nil⟩

/-! ## Passes -/

/-- The ledger tells nothing of what is due or pending. -/
theorem Ledger.settled (h : s.Ledger answers direct)
    (hregistry : t.registry = s.registry) (hinbox : t.inbox = s.inbox)
    (hmatcher : t.matcher = s.matcher)
    (hobjects : t.objects.map Tracked.settled = s.objects.map Tracked.settled) :
    t.Ledger answers direct := by
  refine h.of_same hregistry hinbox ?_ fun o ho => ?_
  · rintro q ⟨a, ha, hq⟩
    have : a.settled ∈ t.objects.map Tracked.settled := hobjects ▸ List.mem_map_of_mem ha
    obtain ⟨o, ho, he⟩ := List.mem_map.mp this
    refine ⟨o, ho, ?_⟩
    change q ∈ o.settled.emitted t.matcher
    rw [he, hmatcher]
    exact hq
  · have : o.settled ∈ s.objects.map Tracked.settled := hobjects ▸ List.mem_map_of_mem ho
    obtain ⟨a, ha, he⟩ := List.mem_map.mp this
    have before := h.objects a ha
    have accounted : o.settled.Accounted t.matcher s.registry.status? s.inbox answers
        (direct o.settled.id) := by
      rw [hmatcher, ← he]
      exact ⟨before.bound, before.asked, before.delivered, before.placed⟩
    exact ⟨accounted.bound, accounted.asked, accounted.delivered, accounted.placed⟩

variable {calls : String → List Call}

theorem status?_prepare (s : Session) (q : Query) :
    s.prepare.registry.status? q =
      Registry.askedAgain (s.registry.status? q) (s.newQueries.filter fun p => decide (p = q)) := by
  obtain ⟨t, ht, hregistry⟩ := s.exists_registry_prepare
  rw [hregistry, status?_foldl_ask, ht, Registry.askedAgain]

/-- The queries of an object that has applied its calls: those of before, and those of its
queued calls. -/
theorem mem_emitted_readied (c : s.Chronicle calls) {o : Tracked} (ho : o ∈ s.objects) (q : Query) :
    q ∈ (s.readied o).emitted s.matcher ↔
      q ∈ o.emitted s.matcher ∨ q ∈ (s.advanced o).queries := by
  have before : o.states = o.rule.statesAlong s.matcher o.id o.rule.automaton.initial o.calls :=
    c.states o ho
  have static : (s.readied o).emitted s.matcher = (s.advanced o).object.emitted s.matcher := by
    rw [readied, Tracked.receive_eq]
    rfl
  rw [static]
  simp [Tracked.emitted, advanced, Tracked.applyQueued_eq, Tracked.queuedSteps,
    Rule.stepsAlong_append, before]

theorem Chronicle.distinct_prepare (c : s.Chronicle calls) :
    (s.prepare.objects.map Tracked.id).Nodup := by
  rw [objects_prepare c.distinct, List.map_map]
  exact (List.map_congr_left fun o _ => s.id_readied o).symm ▸ c.distinct

theorem bindings_advanced (s : Session) (o : Tracked) :
    (s.advanced o).object.bindings = (o.receive s.inbox).bindings := by
  simp [advanced, Tracked.applyQueued_eq]

theorem prefix_readied (s : Session) (o : Tracked) :
    (o.receive s.inbox).bindings <+: (s.readied o).bindings := by
  rw [← bindings_advanced]
  exact Tracked.prefix_receive _ _

/-- What an object holds when its calls are applied: what it held, what the inbox had for it,
and the known answers to its new queries. -/
theorem mem_bindings_readied {o : Tracked} {b : Binding} (hb : b ∈ (s.readied o).bindings) :
    b ∈ o.bindings ∨ ⟨o.id, b⟩ ∈ s.inbox ∨
      ⟨o.id, b⟩ ∈ (s.advanced o).queries.flatMap s.registry.answersTo := by
  rcases Tracked.mem_of_mem_receive b hb with hb | hb
  · rw [bindings_advanced] at hb
    exact (Tracked.mem_of_mem_receive b hb).imp_right .inl
  · rw [id_advanced] at hb
    exact .inr (.inr hb)

theorem placed_readied {o : Tracked} (h : o.Placed) : (s.readied o).Placed := by
  have : (s.advanced o).object.Placed := by
    unfold Tracked.Placed
    rw [bindings_advanced]
    exact h.receive _
  exact this.receive _

theorem matcher_prepare (s : Session) : s.prepare.matcher = s.matcher :=
  matcher_eq_of_frame s.frame_prepare

/-- Objects ask again what they asked, and ask the new queries. -/
theorem asks_prepare (c : s.Chronicle calls) {q : Query} (h : s.Asks q ∨ q ∈ s.newQueries) :
    s.prepare.Asks q := by
  have : ∃ o ∈ s.objects, q ∈ (s.readied o).emitted s.matcher := by
    rcases h with ⟨o, ho, hq⟩ | hq
    · exact ⟨o, ho, (mem_emitted_readied c ho q).mpr (.inl hq)⟩
    · obtain ⟨o, ho, hq⟩ := List.mem_flatMap.mp hq
      exact ⟨o, ho, (mem_emitted_readied c ho q).mpr (.inr hq)⟩
  obtain ⟨o, ho, hq⟩ := this
  refine ⟨s.readied o, ?_, ?_⟩
  · rw [objects_prepare c.distinct]
    exact List.mem_map_of_mem ho
  · rwa [matcher_prepare]

/-- A query is known afterwards if it was known or is new. -/
theorem isSome_status?_prepare (s : Session) (q : Query) :
    (s.prepare.registry.status? q).isSome = true ↔
      (s.registry.status? q).isSome = true ∨ q ∈ s.newQueries := by
  rw [status?_prepare, Registry.isSome_askedAgain, ne_eq, List.filter_eq_nil_iff]
  simp

theorem status?_prepare_eq_answered_iff (s : Session) (q : Query) (values : List Value) :
    s.prepare.registry.status? q = some (.answered values) ↔
      s.registry.status? q = some (.answered values) := by
  rw [status?_prepare, Registry.askedAgain_eq_answered_iff]

/-- What waits afterwards has been asked by an object. -/
theorem Ledger.waiting_prepare (c : s.Chronicle calls) (h : s.Ledger answers direct) {q : Query}
    {ls : List String} (hls : s.prepare.registry.status? q = some (.waiting ls)) :
    s.prepare.Asks q := by
  refine asks_prepare c ?_
  refine ((s.isSome_status?_prepare q).mp (Option.isSome_of_eq_some hls)).imp_left fun hst => ?_
  obtain ⟨st, hst⟩ := Option.isSome_iff_exists.mp hst
  cases st with
  | waiting before => exact h.waiting q before hst
  | answered values =>
    rw [(s.status?_prepare_eq_answered_iff q values).mpr hst] at hls
    cases hls

/-- What an object takes in are answers to its queries. -/
theorem Ledger.bound_prepare (c : s.Chronicle calls) (h : s.Ledger answers direct) {o : Tracked}
    (ho : o ∈ s.objects) {b : Binding} (hb : b ∈ (s.readied o).bindings) :
    direct o.id b ∨ ∃ q ∈ (s.readied o).emitted s.matcher, ∃ values,
      answers.first? q = some values ∧ b = q.bind values := by
  simp only [mem_emitted_readied c ho]
  rcases mem_bindings_readied hb with hb | hb | hb
  · refine ((h.objects o ho).bound b hb).imp_right ?_
    rintro ⟨q, hq, rest⟩
    exact ⟨q, .inl hq, rest⟩
  · obtain ⟨q, values, hasks, hfirst, hd⟩ := h.inbox _ hb
    obtain ⟨hid, rfl⟩ : o.id = q.object ∧ b = q.bind values := by simpa using hd
    exact .inr ⟨q, .inl (mem_of_asks c.distinct hasks ho hid.symm), values, hfirst, rfl⟩
  · obtain ⟨q, hq, hd⟩ := List.mem_flatMap.mp hb
    unfold Registry.answersTo at hd
    split at hd
    next values hst =>
      obtain ⟨-, rfl⟩ : o.id = q.object ∧ b = q.bind values := by simpa using hd
      exact .inr ⟨q, .inr hq, values, (h.known q values).mp hst, rfl⟩
    next => cases hd

/-- Answers to the queries of an object are taken in, also to those that it asks now. -/
theorem Ledger.hasPlace_prepare (c : s.Chronicle calls) (h : s.Ledger answers direct)
    {o : Tracked} (ho : o ∈ s.objects) {q : Query} (hq : q ∈ (s.readied o).emitted s.matcher)
    {values : List Value} (hfirst : answers.first? q = some values) :
    (s.readied o).hasPlace (q.bind values) = true := by
  rcases (mem_emitted_readied c ho q).mp hq with hq | hq
  · refine Tracked.hasPlace_of_prefix _ (s.prefix_readied o) ?_
    rcases (h.objects o ho).delivered q hq values hfirst with hp | hd
    · exact Tracked.hasPlace_of_prefix _ (Tracked.prefix_receive _ _) hp
    · rw [Tracked.object_of_mem_emitted hq] at hd
      exact Tracked.hasPlace_receive _ hd
  · have hst : s.registry.status? q = some (.answered values) := (h.known q values).mpr hfirst
    refine Tracked.hasPlace_receive _ (List.mem_flatMap.mpr ⟨q, hq, ?_⟩)
    rw [Registry.answersTo, hst, id_advanced, s.object_of_mem_advanced o q hq]
    exact List.mem_singleton_self _

/-- **Taking in bindings, applying calls and asking queries keeps the ledger.** -/
theorem Ledger.prepare (c : s.Chronicle calls) (h : s.Ledger answers direct) :
    s.prepare.Ledger answers direct where
  known q values := (s.status?_prepare_eq_answered_iff q values).trans (h.known q values)
  waiting _ _ hls := h.waiting_prepare c hls
  heard q := by
    rw [status?_prepare]
    exact Registry.heard_askedAgain (by simp) (h.heard q)
  inbox d hd := by
    rw [prepare_eq] at hd
    cases hd
  objects o' ho' := by
    rw [objects_prepare c.distinct] at ho'
    obtain ⟨o, ho, rfl⟩ := List.mem_map.mp ho'
    rw [matcher_prepare, id_readied]
    refine ⟨fun b hb => h.bound_prepare c ho hb, fun q hq => ?_,
      fun q hq values hfirst => .inl (h.hasPlace_prepare c ho hq hfirst),
      placed_readied (h.objects o ho).placed⟩
    rw [isSome_status?_prepare]
    exact ((mem_emitted_readied c ho q).mp hq).imp ((h.objects o ho).asked q)
      fun hq => List.mem_flatMap.mpr ⟨o, ho, hq⟩

theorem Ledger.pass (c : s.Chronicle calls) (h : s.Ledger answers direct) :
    s.pass.1.Ledger answers direct := by
  refine (h.prepare c).settled ?_ ?_ ?_ s.settled_pass_prepare
  · rw [pass_fst, judge_publish]
  · rw [pass_fst, judge_publish]
  · rw [pass_fst]
    exact matcher_eq_of_frame (by rw [frame_judge, frame_publish])

/-! ## Runs -/

theorem Ledger.perform (c : s.Chronicle calls) (h : s.Ledger answers direct) (op : Op) :
    (s.perform op).Ledger (answers ++ s.answersGiven op)
      fun id b => direct id b ∨ op = .bind id b := by
  have same : ∀ {t : Session}, t.Ledger answers direct →
      t.Ledger (answers ++ []) fun id b => direct id b ∨ op = .bind id b := by
    intro t ht
    rw [List.append_nil]
    exact ht.rebase fun _ _ _ _ => .inl
  cases op with
  | track id self className =>
    simp only [Session.perform, Session.track]
    split
    · exact same h
    · split
      · exact same h
      · exact same (h.track id self _)
  | observe id call =>
    simp only [Session.perform, Session.observe]
    split
    · exact same (h.update id (fun _ _ hd => hd) (fun _ => rfl) (fun _ _ => rfl)
        (fun _ => List.prefix_rfl) (fun _ _ _ => .inl) fun _ ho => ho)
    · exact same h
  | bind id b =>
    simp only [Session.perform, Session.bind]
    split
    · exact same h
    · simp only [answersGiven, List.append_nil]
      refine h.update id (fun _ _ => .inl) (fun o => by rw [Tracked.bind_eq])
        (fun m o => by rw [Tracked.bind_eq]; rfl) (fun o => o.prefix_bind b) ?_
        (fun o ho => ho.bind b)
      rintro o rfl c hc
      exact (o.mem_bindings_of_bind b c hc).imp_right fun hcb => .inr (by rw [hcb])
  | supply q values => exact (h.supply q values).rebase fun _ _ _ _ => .inl
  | resolveAll answer? =>
    simp only [Session.perform, resolveAll_eq_supplyAll]
    exact (h.supplyAll _).rebase fun _ _ _ _ => .inl
  | pass => exact same (h.pass c)

/-- **A run keeps the ledger.** What it binds directly may be bound without a query. -/
theorem Ledger.run (c : s.Chronicle calls) (h : s.Ledger answers direct) (ops : List Op) :
    (s.run ops).Ledger (answers ++ s.answers ops)
      fun id b => direct id b ∨ .bind id b ∈ ops := by
  induction ops generalizing s calls answers direct with
  | nil => simpa [Session.answers] using h
  | cons op ops ih =>
    have step := ih (c.run [op]) (h.perform c op)
    rw [run_cons, Session.answers, ← List.append_assoc]
    refine step.rebase fun o _ b _ hb => ?_
    simpa [or_assoc, eq_comm] using hb

/-! ## Waiting queries -/

theorem keyed_supplyAll (h : s.registry.Keyed) (more : Answers) :
    (s.supplyAll more).registry.Keyed := by
  induction more generalizing s with
  | nil => exact h
  | cons a more ih => exact ih (s := (s.supply a.1 a.2).1) (h.resolve a.1 a.2)

theorem keyed_perform (h : s.registry.Keyed) (op : Op) : (s.perform op).registry.Keyed := by
  cases op with
  | track id self className =>
    simp only [Session.perform, Session.track]
    split
    · exact h
    · split <;> exact h
  | observe id call =>
    simp only [Session.perform, Session.observe]
    split <;> exact h
  | bind id b =>
    simp only [Session.perform, Session.bind]
    split <;> exact h
  | supply q values => exact h.resolve q values
  | resolveAll answer? =>
    simp only [Session.perform, resolveAll_eq_supplyAll]
    exact keyed_supplyAll h _
  | pass =>
    have registry : s.pass.1.registry = s.prepare.registry := by rw [pass_fst, judge_publish]
    rw [Session.perform, registry]
    exact keyed_prepare h

/-- No run enters a query twice. -/
theorem keyed_run (h : s.registry.Keyed) (ops : List Op) : (s.run ops).registry.Keyed := by
  induction ops generalizing s with
  | nil => exact h
  | cons op ops ih => exact ih (keyed_perform h op)

/-- An object has answers to all its queries but those that wait. -/
theorem Ledger.first?_of_not_pending (h : s.Ledger answers direct) (hk : s.registry.Keyed)
    {o : Tracked} (ho : o ∈ s.objects) {q : Query} (hq : q ∈ o.emitted s.matcher)
    (hwait : q ∉ s.registry.pending) : ∃ values, answers.first? q = some values := by
  obtain ⟨st, hst⟩ := Option.isSome_iff_exists.mp ((h.objects o ho).asked q hq)
  cases st with
  | waiting ls => exact absurd ((Registry.mem_pending_iff hk q).mpr ⟨ls, hst⟩) hwait
  | answered values => exact ⟨values, (h.known q values).mp hst⟩

/-! ## What is bound -/

/-- With an empty inbox, the place of a query with an answer is taken: by the answer, or by a
binding that came without a query. -/
theorem Ledger.exists_binding (h : s.Ledger answers direct) (hinbox : s.inbox = [])
    {o : Tracked} (ho : o ∈ s.objects) {q : Query} (hq : q ∈ o.emitted s.matcher)
    {values : List Value} (hfirst : answers.first? q = some values) :
    ∃ c ∈ o.bindings, c.place = (q.bind values).place ∧ (direct o.id c ∨ c = q.bind values) := by
  have taken : o.hasPlace (q.bind values) = true :=
    ((h.objects o ho).delivered q hq values hfirst).resolve_right (by simp [hinbox])
  obtain ⟨c, hc, hplace⟩ := List.mem_map.mp ((o.hasPlace_eq_true_iff _).mp taken)
  refine ⟨c, hc, hplace, ((h.objects o ho).bound c hc).imp_right ?_⟩
  rintro ⟨p, hp, known, hk, rfl⟩
  have hpq : p = q := Query.ext_place
    ((Tracked.object_of_mem_emitted hp).trans (Tracked.object_of_mem_emitted hq).symm) hplace
  subst hpq
  rw [hfirst, Option.some.injEq] at hk
  rw [hk]

/-- **With an empty inbox, what is bound at a place is the answer to its query**, unless the
place was taken without a query. -/
theorem Ledger.mem_bindings_iff (h : s.Ledger answers direct) (hinbox : s.inbox = [])
    {o : Tracked} (ho : o ∈ s.objects) {b : Binding}
    (hfree : ∀ c ∈ o.bindings, direct o.id c → c.place ≠ b.place) :
    b ∈ o.bindings ↔
      ∃ q ∈ o.emitted s.matcher, ∃ values, answers.first? q = some values ∧ b = q.bind values := by
  constructor
  · intro hb
    exact ((h.objects o ho).bound b hb).resolve_left fun hd => hfree b hb hd rfl
  · rintro ⟨q, hq, values, hfirst, rfl⟩
    obtain ⟨c, hc, hplace, hd | rfl⟩ := h.exists_binding hinbox ho hq hfirst
    · exact absurd hplace (hfree c hc hd)
    · exact hc

/-- What an object holds, it holds in a session that knows the same answers too, if both hold
what was bound without a query. -/
theorem Ledger.mem_bindings_of_known {more : Answers} (h : s.Ledger answers direct)
    (h' : t.Ledger more direct) (hinbox : t.inbox = []) {o o' : Tracked} (ho : o ∈ s.objects)
    (ho' : o' ∈ t.objects) (hid : o.id = o'.id)
    (hemitted : ∀ q ∈ o.emitted s.matcher, q ∈ o'.emitted t.matcher)
    (hknown : ∀ q values, answers.first? q = some values → more.first? q = some values)
    {b : Binding} (hb : b ∈ o.bindings)
    (hshared : ∀ c, c.var = b.var → direct o.id c → c ∈ o.bindings ∧ c ∈ o'.bindings) :
    b ∈ o'.bindings := by
  rcases (h.objects o ho).bound b hb with hd | ⟨q, hq, values, hfirst, rfl⟩
  · exact (hshared b rfl hd).2
  · obtain ⟨c, hc, hplace, hd | rfl⟩ :=
      h'.exists_binding hinbox ho' (hemitted q hq) (hknown q values hfirst)
    · -- the place is taken by a binding that both sessions have
      have var : c.var = (q.bind values).var := congrArg (fun p => p.2.1) hplace
      have both := hshared c var (hid ▸ hd)
      rw [← (h.objects o ho).placed.eq_of_place both.1 hb hplace]
      exact both.2
    · exact hc

end Session

end Misuse
