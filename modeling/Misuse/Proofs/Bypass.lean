import Misuse.Proofs.Deferral
import Misuse.Proofs.Deliveries
import Misuse.Proofs.Exchange
import Misuse.Proofs.Fates
import Misuse.Proofs.Repetition

/-!
# Bindings that bypass the registry

While a query is pending its values may be bound to the object at once, or given as an answer.
Either way the object holds the same bindings after the next pass, since a delivery that is
repeated changes nothing (`Expects.shuffled_readied`). But a query that was not answered goes
on waiting, and so do the effects that mention its variable. If the answer lets none of these
through, the pass leaves the same facts and the same report (`pass_of_bypass`). If it does, the
two passes differ (`visible_of_bypass_cipher`).
-/

namespace Misuse.Session

/-! ## Effects that wait for one more variable -/

/-- The effect of the turn mentions the variable, or its guard does. -/
def Turn.Mentions (t : Turn) (x : String) : Prop :=
  ∃ e, t.rule.effects[t.trigger.effect]? = some e ∧ x ∈ e.mentions

/-- A variable that is not mentioned need not be waited for. -/
theorem fate_cons_waiting (s : Session) (waiting : List String) (store : FactStore) (o : Tracked)
    {d : Trigger} {x : String}
    (h : ∀ e, o.rule.effects[d.effect]? = some e → x ∉ e.mentions) :
    s.fate (x :: waiting) store o d = s.fate waiting store o d := by
  unfold fate
  cases he : o.rule.effects[d.effect]? with
  | none => rfl
  | some e =>
    have same : e.mentions.any (x :: waiting).contains = e.mentions.any waiting.contains := by
      rw [Bool.eq_iff_iff, List.any_eq_true, List.any_eq_true]
      refine exists_congr fun y => and_congr_right fun hy => ?_
      have : y ≠ x := fun hyx => h e he (hyx ▸ hy)
      simp [this]
    simp only [same]

namespace Publication

/-- What has been published, whatever is held back. -/
def released (p : Publication) : Publication := { p with kept := [] }

theorem released_add (p : Publication) (facts : List Fact) :
    (p.add facts).released = p.released.add facts := by
  unfold add
  split <;> rfl

theorem add_nil (p : Publication) : p.add [] = p := rfl

end Publication

/-- Two sessions whose objects differ in the order of their bindings only, of which the first
one waits for one variable more. -/
structure Behind (s t : Session) (id x : String) : Prop where
  frame : s.frame = t.frame
  objects : List.Forall₂ Tracked.Shuffled s.objects t.objects
  waiting : ∀ i y, y ∈ s.waitingVars i ↔ y ∈ t.waitingVars i ∨ i = id ∧ y = x
  store : s.store = t.store
  permanent : s.permanent = t.permanent

namespace Behind

variable {s t : Session} {id x : String} (h : s.Behind t id x)
include h

/-- The turn of an effect releases the same, or what waits in the first session releases
nothing in the other one either. -/
theorem released_publishDue {o o' : Tracked} (ho : o.Shuffled o') {p p' : Publication}
    (hp : p.released = p'.released) (d : Trigger)
    (idle : (t.turn p'.store o' d).object = id → (t.turn p'.store o' d).Mentions x →
      (t.turn p'.store o' d).fate.facts = []) :
    (s.publishDue (s.waitingVars o.id) o p d).released =
      (t.publishDue (t.waitingVars o'.id) o' p' d).released := by
  have store : p.store = p'.store := congrArg (fun p => p.store) hp
  have same : o.id = o'.id := ho.view.object
  by_cases waits : o'.id = id ∧ (t.turn p'.store o' d).Mentions x
  · obtain ⟨hid, e, he, hx⟩ := waits
    have held : s.fate (s.waitingVars o.id) p.store o d = .deferred :=
      s.fate_of_waiting p.store (ho.rule ▸ he) hx
        ((h.waiting o.id x).mpr (.inr ⟨same.trans hid, rfl⟩))
    have nothing : (t.fate (t.waitingVars o'.id) p'.store o' d).facts = [] :=
      idle hid ⟨e, he, hx⟩
    have left : (t.publishDue (t.waitingVars o'.id) o' p' d).released = p'.released := by
      unfold publishDue
      cases hf : t.fate (t.waitingVars o'.id) p'.store o' d with
      | dropped => rfl
      | deferred => rfl
      | published facts =>
        rw [hf] at nothing
        simp only [show facts = [] from nothing, Publication.add_nil]
    rw [left, ← hp, publishDue, held]
    rfl
  · have fates : s.fate (s.waitingVars o.id) p.store o d =
        t.fate (t.waitingVars o'.id) p'.store o' d := by
      rw [store, same]
      by_cases hid : o'.id = id
      · have unmentioned : ∀ e, o'.rule.effects[d.effect]? = some e → x ∉ e.mentions :=
          fun e he hx => waits ⟨hid, e, he, hx⟩
        rw [← t.fate_cons_waiting (t.waitingVars o'.id) p'.store o' unmentioned]
        refine fate_shuffled h.frame ho (fun y => ?_) p'.store d
        rw [h.waiting, List.mem_cons, or_comm]
        simp [hid]
      · refine fate_shuffled h.frame ho (fun y => ?_) p'.store d
        rw [h.waiting]
        simp [hid]
    unfold publishDue
    rw [fates]
    cases t.fate (t.waitingVars o'.id) p'.store o' d with
    | dropped => exact hp
    | deferred => exact hp
    | published facts => rw [Publication.released_add, Publication.released_add, hp]

theorem released_foldl_publishDue {o o' : Tracked} (ho : o.Shuffled o') (ds : List Trigger)
    {p p' : Publication} (hp : p.released = p'.released)
    (idle : ∀ y ∈ t.turnsOwn o' p' ds, y.object = id → y.Mentions x → y.fate.facts = []) :
    (ds.foldl (s.publishDue (s.waitingVars o.id) o) p).released =
      (ds.foldl (t.publishDue (t.waitingVars o'.id) o') p').released := by
  induction ds generalizing p p' with
  | nil => exact hp
  | cons d ds ih =>
    obtain ⟨first, rest⟩ := List.forall_mem_cons.mp idle
    exact ih (h.released_publishDue ho hp d first) rest

theorem released_foldl_publishOwn {os os' : List Tracked}
    (hos : List.Forall₂ Tracked.Shuffled os os') {p p' : Publication} (hp : p.released = p'.released)
    (idle : ∀ y ∈ t.turnsFrom p' os', y.object = id → y.Mentions x → y.fate.facts = []) :
    (os.foldl s.publishOwn p).released = (os'.foldl t.publishOwn p').released := by
  induction hos generalizing p p' with
  | nil => exact hp
  | @cons o o' _ _ ho _ ih =>
    obtain ⟨own, rest⟩ := List.forall_mem_append.mp idle
    have due : o.due = o'.due := congrArg (fun o => o.due) ho.unbound
    refine ih ?_ rest
    rw [publishOwn, publishOwn, due]
    exact h.released_foldl_publishDue ho _ hp own

end Behind

/-- **A pass publishes the same if what waits longer would have published nothing.** -/
theorem Behind.concordant {s t : Session} {id x : String} (h : s.prepare.Behind t.prepare id x)
    (idle : ∀ y ∈ t.turns, y.object = id → y.Mentions x → y.fate.facts = []) :
    s.prepare.Concordant t.prepare where
  frame := h.frame
  objects := h.objects
  permanent := h.permanent
  published := by
    have same : s.prepare.publication.released = t.prepare.publication.released :=
      h.released_foldl_publishOwn h.objects (by rw [h.store]) idle
    have store := congrArg (fun p => p.store) same
    have retractions := congrArg (fun p => p.retractions) same
    rw [store_publish_eq, store_publish_eq]
    exact congrArg₂ FactStore.retractAll store retractions

/-- What waits is held back. -/
theorem Behind.deferred {s t : Session} {id x : String} (h : s.prepare.Behind t.prepare id x)
    {y : Turn} (hy : y ∈ s.turns) (hid : y.object = id) (mentions : y.Mentions x) :
    y.fate = .deferred := by
  obtain ⟨o, -, store, d, rfl⟩ := exists_of_mem_turnsFrom hy
  obtain ⟨e, he, hx⟩ := mentions
  exact s.prepare.fate_of_waiting store he hx ((h.waiting o.id x).mpr (.inr ⟨hid, rfl⟩))

/-! ## Two ways to give values -/

/-- A session between two passes in which a query is pending. -/
structure Expects (s : Session) (calls : String → List Call) (base : Answers) (q : Query) :
    Prop where
  chronicle : s.Chronicle calls
  ledger : s.Ledger base s.Holds
  keyed : s.registry.Keyed
  waiting : ∃ ls, s.registry.status? q = some (.waiting ls)

/-- The values are bound to the object of the query, and the query goes on waiting. -/
def bypass (s : Session) (q : Query) (values : List Value) : Session :=
  s.perform (.bind q.object (q.bind values))

theorem bypass_eq (s : Session) (q : Query) (values : List Value) :
    s.bypass q values =
      { s with objects := s.objects.map (Tracked.receive [⟨q.object, q.bind values⟩]) } := by
  change _ = s.update q.object fun o => o.bind (q.bind values)
  simp only [bypass, perform, Session.bind]
  cases h : s.object? q.object with
  | none => exact (update_eq_self h _).symm
  | some o => rfl

/-- Deliveries to one place are the same. -/
theorem Ledger.eq_of_place {s : Session} {answers : Answers} {direct : String → Binding → Prop}
    (h : s.Ledger answers direct) (qs : List Query) {d e : Delivery String}
    (hd : d ∈ s.inbox ++ qs.flatMap s.registry.answersTo)
    (he : e ∈ s.inbox ++ qs.flatMap s.registry.answersTo) (target : d.target = e.target)
    (place : d.binding.place = e.binding.place) : d = e := by
  have answer {d : Delivery String} (hd : d ∈ s.inbox ++ qs.flatMap s.registry.answersTo) :
      ∃ p values, answers.first? p = some values ∧ d = ⟨p.object, p.bind values⟩ := by
    rcases List.mem_append.mp hd with hd | hd
    · obtain ⟨p, values, -, known, rfl⟩ := h.inbox d hd
      exact ⟨p, values, known, rfl⟩
    · obtain ⟨p, -, hd⟩ := List.mem_flatMap.mp hd
      unfold Registry.answersTo at hd
      split at hd
      next values hst =>
        exact ⟨p, values, (h.known p values).mp hst, List.mem_singleton.mp hd⟩
      next => cases hd
  obtain ⟨p, values, known, rfl⟩ := answer hd
  obtain ⟨p', values', known', rfl⟩ := answer he
  obtain rfl := Query.ext_place target place
  rw [known, Option.some.injEq] at known'
  rw [known']

section Expects

variable {s : Session} {calls : String → List Call} {base : Answers} {q : Query}
  (h : s.Expects calls base q) (values : List Value)
include h

namespace Expects

/-- The answer is delivered, perhaps some times. -/
theorem exists_deliveries : ∃ again : List (Delivery String),
    (s.registry.resolve q values).2.1 = ⟨q.object, q.bind values⟩ :: again ∧
      ∀ e ∈ again, e = ⟨q.object, q.bind values⟩ := by
  have all : ∀ e ∈ (s.registry.resolve q values).2.1, e = ⟨q.object, q.bind values⟩ :=
    fun e he => h.ledger.eq_of_mem_resolve he
  obtain ⟨ls, hls⟩ := h.waiting
  have some_one : ⟨q.object, q.bind values⟩ ∈ (s.registry.resolve q values).2.1 :=
    Registry.mem_snd_resolve hls (h.ledger.heard q ls hls).1 values
  cases hr : (s.registry.resolve q values).2.1 with
  | nil =>
    rw [hr] at some_one
    cases some_one
  | cons e again =>
    rw [hr] at all
    obtain ⟨rfl, rest⟩ := List.forall_mem_cons.mp all
    exact ⟨again, rfl, rest⟩

/-- The answers to other queries are known as before. -/
theorem filter_answers (qs : List Query) :
    (qs.flatMap (s.supply q values).1.registry.answersTo).filter
        (fun e => decide (e ≠ ⟨q.object, q.bind values⟩)) =
      (qs.flatMap s.registry.answersTo).filter
        fun e => decide (e ≠ ⟨q.object, q.bind values⟩) := by
  rw [List.filter_flatMap, List.filter_flatMap]
  refine List.flatMap_congr fun p _ => ?_
  obtain ⟨ls, hls⟩ := h.waiting
  unfold Registry.answersTo
  rw [status?_supply]
  by_cases hp : q = p
  · subst hp
    simp [hls, Registry.answeredStatus]
  · rw [if_neg hp]

end Expects

omit h

/-- What an object receives if the values are bound to it. -/
theorem bindings_bypass (o : Tracked) :
    ((s.bypass q values).readied (o.receive [⟨q.object, q.bind values⟩])).bindings =
      (o.receive (⟨q.object, q.bind values⟩ ::
        (s.inbox ++ (o.applyQueued s.matcher).queries.flatMap s.registry.answersTo))).bindings := by
  have asked : ((s.bypass q values).advanced (o.receive [⟨q.object, q.bind values⟩])).queries =
      (o.applyQueued s.matcher).queries := by
    rw [(advanced_eq _ _).1, (applyQueued_receive _ _ _).1, bypass_eq]
    rfl
  rw [bindings_readied, asked, bypass_eq, ← Tracked.receive_append, List.singleton_append]

/-- What it receives if they are an answer. -/
theorem bindings_answered (o : Tracked) :
    ((s.supply q values).1.readied o).bindings =
      (o.receive (s.inbox ++ ((s.registry.resolve q values).2.1 ++
        (o.applyQueued s.matcher).queries.flatMap
          (s.supply q values).1.registry.answersTo))).bindings := by
  have asked : ((s.supply q values).1.advanced o).queries = (o.applyQueued s.matcher).queries :=
    (advanced_eq _ _).1
  rw [bindings_readied, asked, ← List.append_assoc]
  rfl

theorem unbound_bypass (o : Tracked) :
    ((s.bypass q values).readied (o.receive [⟨q.object, q.bind values⟩])).unbound =
      ((s.supply q values).1.readied o).unbound := by
  rw [unbound_readied, unbound_readied, (applyQueued_receive _ _ _).2.2, bypass_eq]
  rfl

variable {o : Tracked}

namespace Expects

include h

/-- **Either way an object comes to hold the same bindings**, in an order of its own. -/
theorem shuffled_readied (ho : o ∈ s.objects) :
    ((s.bypass q values).readied (o.receive [⟨q.object, q.bind values⟩])).Shuffled
      ((s.supply q values).1.readied o) where
  unbound := unbound_bypass values o
  bindings := by
    obtain ⟨again, deliveries, repeated⟩ := h.exists_deliveries values
    have filtered := h.filter_answers values (o.applyQueued s.matcher).queries
    have ledger := h.ledger.supply q values
    rw [bindings_bypass, bindings_answered]
    refine Tracked.perm_receive (h.ledger.objects o ho).placed ?_ ?_
    · have inbox : (s.supply q values).1.inbox = s.inbox ++ (s.registry.resolve q values).2.1 := rfl
      rw [← List.append_assoc, ← inbox]
      exact fun d hd e he => ledger.eq_of_place _ hd he
    · rw [deliveries]
      exact Tracked.mem_deliveries_iff repeated filtered _

/-- They are in the same order if no other answer is on its way to the object. -/
theorem bindings_readied (quiet : ∀ d ∈ s.inbox, d.target ≠ q.object) :
    ((s.bypass q values).readied (o.receive [⟨q.object, q.bind values⟩])).bindings =
      ((s.supply q values).1.readied o).bindings := by
  obtain ⟨again, deliveries, repeated⟩ := h.exists_deliveries values
  have filtered := h.filter_answers values (o.applyQueued s.matcher).queries
  have same := Tracked.receive_deliveries repeated filtered o s.inbox
    (fun d => decide (d.target = o.id)) fun hid => by
      rw [List.filter_eq_nil_iff, ← of_decide_eq_true hid]
      simpa using quiet
  rw [Tracked.receive_filter, Tracked.receive_filter] at same
  rw [bindings_bypass, bindings_answered, deliveries]
  exact congrArg Tracked.bindings same

/-- A constraint reads the same if it reads no other answer that is on its way. -/
theorem filter_readied {vars : List String}
    (apart : o.id = q.object → q.var ∈ vars → ∀ d ∈ s.inbox, d.target = o.id →
      d.binding.var ∉ vars) :
    ((s.bypass q values).readied (o.receive [⟨q.object, q.bind values⟩])).bindings.filter
        (fun b => vars.contains b.var) =
      ((s.supply q values).1.readied o).bindings.filter fun b => vars.contains b.var := by
  obtain ⟨again, deliveries, repeated⟩ := h.exists_deliveries values
  have filtered := h.filter_answers values (o.applyQueued s.matcher).queries
  rw [bindings_bypass, bindings_answered, deliveries, Tracked.filter_receive,
    Tracked.filter_receive]
  refine congrArg Tracked.bindings
    (Tracked.receive_deliveries repeated filtered (o.narrow vars) _ _ fun hd => ?_)
  simp only [Bool.and_eq_true, decide_eq_true_eq, List.contains_iff_mem] at hd
  rw [List.filter_eq_nil_iff]
  intro d hin
  simpa using apart hd.1.symm hd.2 d hin

/-! ### Whole sessions -/

theorem objects_bypass : (s.bypass q values).prepare.objects =
    s.objects.map fun o =>
      (s.bypass q values).readied (o.receive [⟨q.object, q.bind values⟩]) := by
  have objects : (s.bypass q values).objects =
      s.objects.map (Tracked.receive [⟨q.object, q.bind values⟩]) := by rw [bypass_eq]
  have ids : Tracked.id ∘ Tracked.receive [⟨q.object, q.bind values⟩] = Tracked.id :=
    funext fun o => Tracked.id_receive _ o
  have distinct : ((s.bypass q values).objects.map Tracked.id).Nodup := by
    rw [objects, List.map_map, ids]
    exact h.chronicle.distinct
  rw [objects_prepare distinct, objects, List.map_map]
  rfl

theorem objects_answered : (s.supply q values).1.prepare.objects =
    s.objects.map (s.supply q values).1.readied := objects_prepare h.chronicle.distinct

/-- The objects of the one session, side by side with those of the other one. -/
theorem forall₂_prepare {r : Tracked → Tracked → Prop}
    (hr : ∀ o ∈ s.objects, r ((s.bypass q values).readied (o.receive [⟨q.object, q.bind values⟩]))
      ((s.supply q values).1.readied o)) :
    List.Forall₂ r (s.bypass q values).prepare.objects (s.supply q values).1.prepare.objects := by
  rw [h.objects_bypass, h.objects_answered, List.forall₂_map_left_iff,
    List.forall₂_map_right_iff, List.forall₂_same]
  exact hr

/-- A query that was not answered goes on waiting. -/
theorem mem_waitingVars (id x : String) :
    x ∈ (s.bypass q values).prepare.waitingVars id ↔
      x ∈ (s.supply q values).1.prepare.waitingVars id ∨ id = q.object ∧ x = q.var := by
  have waits (st : Option (Registry.Status String)) :
      (∃ ls, st = some (.waiting ls)) ↔
        st.isSome = true ∧ ∀ values, st ≠ some (.answered values) := by
    rcases st with _ | st
    · simp
    · cases st <;> simp
  have asked : (s.bypass q values).newQueries = (s.supply q values).1.newQueries := by
    have objects : (s.bypass q values).objects =
        s.objects.map (Tracked.receive [⟨q.object, q.bind values⟩]) := by rw [bypass_eq]
    rw [newQueries, newQueries, objects, List.flatMap_map]
    refine List.flatMap_congr fun o _ => ?_
    rw [(advanced_eq _ _).1, (advanced_eq _ _).1, (applyQueued_receive _ _ _).1, bypass_eq]
    rfl
  have registry : (s.bypass q values).registry = s.registry := by rw [bypass_eq]
  have keyed : (s.bypass q values).prepare.registry.Keyed := keyed_prepare (registry ▸ h.keyed)
  have keyed' : (s.supply q values).1.prepare.registry.Keyed :=
    keyed_prepare (h.keyed.resolve q values)
  obtain ⟨ls, hls⟩ := h.waiting
  have status (p : Query) : (∃ ls, (s.bypass q values).prepare.registry.status? p =
        some (.waiting ls)) ↔
      (∃ ls, (s.supply q values).1.prepare.registry.status? p = some (.waiting ls)) ∨ p = q := by
    simp only [waits, isSome_status?_prepare, ne_eq, status?_prepare_eq_answered_iff, asked,
      registry, status?_supply]
    by_cases hp : q = p
    · subst hp
      simp [hls]
    · simp [hp, Ne.symm hp]
  rw [mem_waitingVars_iff keyed, mem_waitingVars_iff keyed']
  simp only [status]
  constructor
  · rintro ⟨p, waiting | rfl, hid, hx⟩
    · exact .inl ⟨p, waiting, hid, hx⟩
    · exact .inr ⟨hid.symm, hx.symm⟩
  · rintro (⟨p, waiting, hid, hx⟩ | ⟨rfl, rfl⟩)
    · exact ⟨p, .inl waiting, hid, hx⟩
    · exact ⟨q, .inr rfl, rfl, rfl⟩

/-- **Before facts are published, one variable more is waited for.** -/
theorem behind :
    (s.bypass q values).prepare.Behind (s.supply q values).1.prepare q.object q.var where
  frame := by
    rw [frame_prepare, frame_prepare, bypass_eq]
    rfl
  objects := h.forall₂_prepare values fun o ho => h.shuffled_readied values ho
  waiting := h.mem_waitingVars values
  store := by
    rw [store_prepare, store_prepare, bypass_eq]
    rfl
  permanent := by
    rw [permanent_prepare, permanent_prepare, bypass_eq, List.flatMap_map]
    refine congrArg s.permanent.extend (List.flatMap_congr fun o _ => ?_)
    rw [(advanced_eq _ _).2.1, (advanced_eq _ _).2.1, (applyQueued_receive _ _ _).2.1]
    rfl

/-- Constraints read the same if none reads the variable along with that of another answer. -/
theorem sameReads_prepare
    (apart : ∀ o ∈ s.objects, o.id = q.object → ∀ c ∈ o.rule.constraints, q.var ∈ c.reads →
      ∀ d ∈ s.inbox, d.target = o.id → d.binding.var ∉ c.reads)
    {o o' : Tracked} (ho : o ∈ (s.bypass q values).prepare.objects)
    (ho' : o' ∈ (s.supply q values).1.prepare.objects) (unbound : o.unbound = o'.unbound) :
    o.SameReads o' := by
  rw [h.objects_bypass] at ho
  rw [h.objects_answered] at ho'
  obtain ⟨a, ha, rfl⟩ := List.mem_map.mp ho
  obtain ⟨b, hb, rfl⟩ := List.mem_map.mp ho'
  have id : a.id = b.id := by
    have ids := congrArg (fun o => o.id) (unbound_bypass values a ▸ unbound)
    exact (id_readied _ a).symm.trans (ids.trans (id_readied _ b))
  obtain rfl : a = b := List.inj_on_of_nodup_map h.chronicle.distinct ha hb id
  have rule : ((s.bypass q values).readied (a.receive [⟨q.object, q.bind values⟩])).rule =
      a.rule := (rule_readied _ _).trans (Tracked.rule_receive _ a)
  exact (h.shuffled_readied values ha).sameReads fun c hc =>
    h.filter_readied values fun hid => apart a ha hid c (rule ▸ hc)

end Expects

end Expects

/-! ## What a direct binding does not do -/

/-- The same object in two sessions, which holds the same bindings in both. They are in the same
order if `ordered` holds. -/
structure HoldsSame (ordered : Prop) (o o' : Tracked) : Prop where
  id : o.id = o'.id
  bindings : o.bindings.Perm o'.bindings
  order : ordered → o.bindings = o'.bindings

/-- What is due or pending has no bearing on what is held. -/
theorem forall₂_holdsSame_pass {s t : Session} {ordered : Prop}
    (h : List.Forall₂ (HoldsSame ordered) s.prepare.objects t.prepare.objects) :
    List.Forall₂ (HoldsSame ordered) s.pass.1.objects t.pass.1.objects := by
  have lift (os os' : List Tracked) :
      List.Forall₂ (HoldsSame ordered) (os.map Tracked.settled) (os'.map Tracked.settled) ↔
        List.Forall₂ (HoldsSame ordered) os os' := by
    rw [List.forall₂_map_left_iff, List.forall₂_map_right_iff]
    have same (o o' : Tracked) :
        HoldsSame ordered o.settled o'.settled ↔ HoldsSame ordered o o' :=
      ⟨fun h => ⟨h.id, h.bindings, h.order⟩, fun h => ⟨h.id, h.bindings, h.order⟩⟩
    simp only [same]
  rw [← lift, settled_pass_prepare, settled_pass_prepare, lift]
  exact h

/-- **A direct binding does what an answer does, but for the effects that wait for it.** Take
any run after which a query is pending, and give values to the variable directly or as an
answer. After the next pass every object holds the same bindings either way. Given directly,
every effect of the object is held back that mentions the variable. If given as an answer the
pass publishes nothing with these effects, then the store is the same either way, and so are the
records, but for the order of their sites. The reports are the same if no constraint reads the
variable along with that of another answer on its way to the object. -/
theorem pass_of_bypass {settings : Settings} {rules : Rulebook} {subtyping : Subtyping}
    {s : Session} (h : start settings rules subtyping = .ok s) (ops : List Op) {q : Query}
    (pending : q ∈ (s.run ops).registry.pending) (values : List Value) :
    let t := s.run ops
    let direct := t.perform (.bind q.object (q.bind values))
    let answered := t.perform (.supply q values)
    let u := direct.pass.1
    let v := answered.pass.1
    List.Forall₂ (HoldsSame (∀ d ∈ t.inbox, d.target ≠ q.object)) u.objects v.objects ∧
      u.permanent = v.permanent ∧
      (∀ x ∈ direct.turns, x.object = q.object → x.Mentions q.var → x.fate = .deferred) ∧
      ((∀ x ∈ answered.turns, x.object = q.object → x.Mentions q.var → x.fate.facts = []) →
        u.store = v.store ∧ u.report.Alike v.report ∧
          ((∀ o ∈ t.objects, o.id = q.object → ∀ c ∈ o.rule.constraints, q.var ∈ c.reads →
              ∀ d ∈ t.inbox, d.target = o.id → d.binding.var ∉ c.reads) →
            u.report = v.report)) := by
  intro t direct answered u v
  have keyed : t.registry.Keyed := keyed_run (unasked_start h).keyed ops
  have expects : t.Expects (fun id => [] ++ s.observed id ops) ([] ++ s.answers ops) q :=
    { chronicle := (chronicle_start h).run ops
      ledger := ((ledger_start h).run (chronicle_start h) ops).holds
      keyed
      waiting := (Registry.mem_pending_iff keyed q).mp pending }
  have behind : direct.prepare.Behind answered.prepare q.object q.var := expects.behind values
  refine ⟨?_, ?_, fun x hx => behind.deferred hx, fun idle => ?_⟩
  · refine forall₂_holdsSame_pass (expects.forall₂_prepare values fun o ho => ?_)
    have shuffled := expects.shuffled_readied values ho
    exact ⟨shuffled.view.object, shuffled.bindings, expects.bindings_readied values⟩
  · exact (permanent_pass_prepare _).trans
      (behind.permanent.trans (permanent_pass_prepare _).symm)
  · have concordant : direct.prepare.Concordant answered.prepare := behind.concordant idle
    have unfailed : direct.Unfailed :=
      ((unfailed_start h).run ops).run [.bind q.object (q.bind values)]
    refine ⟨concordant.store_pass, concordant.alike_pass unfailed.prepare, fun apart => ?_⟩
    exact concordant.report_pass fun o ho o' ho' => expects.sameReads_prepare values apart ho ho'

/-! ## A guard that waits -/

/-- A cipher waits for its algorithm. -/
def awaitingOps : List Op :=
  [.track "c" "c@1" "Cipher", .observe "c" ⟨"1", ⟨"Cipher", "init", ["String"]⟩, "Cipher"⟩, .pass]

/-- Without a key the guard is false for DES, whichever way the algorithm is given. The effect is
held back in the one case and dropped in the other one, and the report is the same. -/
theorem pass_of_bypass_des :
    let t := guardedSession.run awaitingOps
    let q : Query := ⟨"c", "1", "alg", .argument 0⟩
    let values : List Value := [⟨.constant (.text "DES"), none⟩]
    let u := (t.perform (.bind q.object (q.bind values))).pass.1
    let answered := t.perform (.supply q values)
    let v := answered.pass.1
    start guardedSession.settings guardedSession.rules guardedSession.subtyping =
        .ok guardedSession ∧
      q ∈ t.registry.pending ∧
      (∀ x ∈ answered.turns, x.object = q.object → x.Mentions q.var → x.fate.facts = []) ∧
      (answered.turns.map Turn.fate = [.dropped]) ∧
      u.report = v.report ∧ u.report.records.map Violation.kind = [.missingPredicate] := by
  intro t q values u answered v
  have started : start guardedSession.settings guardedSession.rules guardedSession.subtyping =
      .ok guardedSession := rfl
  have pending : q ∈ t.registry.pending := by decide +kernel
  have fates : answered.turns.map Turn.fate = [.dropped] := by decide +kernel
  have idle : ∀ x ∈ answered.turns, x.object = q.object → x.Mentions q.var →
      x.fate.facts = [] := by
    intro x hx _ _
    have : x.fate ∈ answered.turns.map Turn.fate := List.mem_map_of_mem hx
    rw [fates, List.mem_singleton] at this
    rw [this]
    rfl
  have inbox : t.inbox = [] := by decide +kernel
  refine ⟨started, pending, idle, fates, ?_, by decide +kernel⟩
  refine ((pass_of_bypass started awaitingOps pending values).2.2.2 idle).2.2 ?_
  intro o _ _ c _ _ d hd
  change d ∈ t.inbox at hd
  rw [inbox] at hd
  cases hd

/-- **Given AES as an answer the guard is true, and given it directly the effect waits on.** The
place of the algorithm is free, and the cipher holds the same bindings either way. -/
theorem visible_of_bypass_cipher :
    let t := guardedSession.run awaitingOps
    let q : Query := ⟨"c", "1", "alg", .argument 0⟩
    let values : List Value := [⟨.constant (.text "AES"), none⟩]
    let u := (t.perform (.bind q.object (q.bind values))).pass.1
    let v := (t.perform (.supply q values)).pass.1
    start guardedSession.settings guardedSession.rules guardedSession.subtyping =
        .ok guardedSession ∧
      guardedSession.rules.rejected = [] ∧
      q ∈ t.registry.pending ∧
      (t.objects.map fun o => (o.id, o.hasPlace (q.bind values))) = [("c", false)] ∧
      u.objects.map (fun o => o.bindings) = v.objects.map (fun o => o.bindings) ∧
      u.store.visible "prepared" = [] ∧ v.store.visible "prepared" = [[.object "c@1"]] ∧
      u.report.records.map Violation.kind = [.missingPredicate] ∧ v.report.records = [] ∧
      u.report ≠ v.report := by
  intro t q values u v
  have missing : u.report.records.map Violation.kind = [.missingPredicate] := by decide +kernel
  have none : v.report.records = [] := by decide +kernel
  have differ : u.report ≠ v.report := by
    intro same
    rw [same, none] at missing
    cases missing
  exact ⟨rfl, by decide, by decide +kernel, by decide +kernel, by decide +kernel,
    by decide +kernel, by decide +kernel, missing, none, differ⟩

end Misuse.Session
