import Misuse.Proofs.Arrival
import Misuse.Proofs.Ledger
import Misuse.Proofs.Lookups
import Misuse.Proofs.Reads

/-!
# When an answer arrives

An effect waits until no query is unanswered for a variable that it mentions. By then the
bindings of these variables are the first answers, whenever they were given. So if the guard
reads no other variable (`Overt`), the effect comes to the same in any two sessions that agree
on the answers and on what the guard looks up (`Ahead.fate_eq`).
-/

namespace Misuse

/-- The guard of the effect reads only variables that the effect mentions. -/
def Effect.Overt (e : Effect) : Prop :=
  ∀ g, e.predicate.guard = some g → ∀ x ∈ g.reads, x ∈ e.mentions

instance (e : Effect) : Decidable e.Overt :=
  inferInstanceAs (Decidable (∀ g ∈ e.predicate.guard, ∀ x ∈ g.reads, x ∈ e.mentions))

namespace Tracked

/-- One object in two sessions: only its bindings, and what is pending or due, may differ. -/
structure Twin (o o' : Tracked) : Prop where
  id : o.id = o'.id
  self : o.self = o'.self
  rule : o.rule = o'.rule
  calls : o.calls = o'.calls

theorem Twin.symm {o o' : Tracked} (h : o.Twin o') : o'.Twin o :=
  ⟨h.id.symm, h.self.symm, h.rule.symm, h.calls.symm⟩

theorem Twin.emitted {o o' : Tracked} (h : o.Twin o') (m : Matcher) :
    o.emitted m = o'.emitted m := by
  rw [Tracked.emitted, Tracked.emitted, h.id, h.rule, h.calls]

end Tracked

namespace Session

/-- Two sessions of which the second one knows all the answers that the first one knows. What
either has bound without a query to a variable that effects mention, both have. -/
structure Ahead (s t : Session) (answers more : Answers) (direct : String → Binding → Prop) :
    Prop where
  frame : s.frame = t.frame
  ledger : s.Ledger answers direct
  ledger' : t.Ledger more direct
  inbox : s.inbox = []
  inbox' : t.inbox = []
  keyed : s.registry.Keyed
  keyed' : t.registry.Keyed
  distinct : (s.objects.map Tracked.id).Nodup
  distinct' : (t.objects.map Tracked.id).Nodup
  known : ∀ q values, answers.first? q = some values → more.first? q = some values
  shared : ∀ o ∈ s.objects, ∀ o' ∈ t.objects, o.Twin o' → ∀ b, direct o.id b →
    ∀ e ∈ o.rule.effects, b.var ∈ e.mentions → b ∈ o.bindings ∧ b ∈ o'.bindings

variable {s t : Session} {answers more : Answers} {direct : String → Binding → Prop}

/-- Sessions that know the same are ahead of each other. -/
theorem Ahead.symm (h : s.Ahead t answers more direct)
    (hknown : ∀ q values, more.first? q = some values → answers.first? q = some values) :
    t.Ahead s more answers direct where
  frame := h.frame.symm
  ledger := h.ledger'
  ledger' := h.ledger
  inbox := h.inbox'
  inbox' := h.inbox
  keyed := h.keyed'
  keyed' := h.keyed
  distinct := h.distinct'
  distinct' := h.distinct
  known := hknown
  shared o ho o' ho' twin b hb e he hv :=
    (h.shared o' ho' o ho twin.symm b (twin.id ▸ hb) e (twin.rule ▸ he) hv).symm

namespace Ahead

theorem matcher_eq (h : s.Ahead t answers more direct) : s.matcher = t.matcher :=
  matcher_eq_of_frame h.frame

variable (h : s.Ahead t answers more direct) {o o' : Tracked} (ho : o ∈ s.objects)
  (ho' : o' ∈ t.objects) (twin : o.Twin o')
include h ho ho' twin

/-- What waits in the session that is ahead waits in the other one. -/
theorem mem_waitingVars {x : String} (hx : x ∈ t.waitingVars o'.id) : x ∈ s.waitingVars o.id := by
  rw [mem_waitingVars_iff h.keyed'] at hx
  obtain ⟨q, ⟨ls, hls⟩, hobject, rfl⟩ := hx
  obtain ⟨a, ha, hq⟩ := h.ledger'.waiting q ls hls
  have hid : a.id = o'.id := (Tracked.object_of_mem_emitted hq).symm.trans hobject
  have : a = o' := List.inj_on_of_nodup_map h.distinct' ha ho' hid
  subst this
  rw [← twin.emitted, ← h.matcher_eq] at hq
  rw [mem_waitingVars_iff h.keyed]
  refine ⟨q, ?_, hobject.trans twin.id.symm, rfl⟩
  by_contra hwait
  have pending : q ∉ s.registry.pending := fun hp =>
    hwait ((Registry.mem_pending_iff h.keyed q).mp hp)
  obtain ⟨values, hfirst⟩ := h.ledger.first?_of_not_pending h.keyed ho hq pending
  rw [(h.ledger'.known q values).mpr (h.known q values hfirst)] at hls
  cases hls

/-- A binding of a variable that an effect mentions is in the session that is ahead. -/
theorem mem_bindings {e : Effect} (he : e ∈ o.rule.effects) {b : Binding} (hb : b ∈ o.bindings)
    (hv : b.var ∈ e.mentions) : b ∈ o'.bindings := by
  refine h.ledger.mem_bindings_of_known h.ledger' h.inbox' ho ho' twin.id ?_ h.known hb ?_
  · rw [h.matcher_eq, twin.emitted]
    exact fun _ => id
  · exact fun c hvar hc => h.shared o ho o' ho' twin c hc e he (hvar ▸ hv)

/-- And one of a variable that nothing waits for comes from there. -/
theorem mem_bindings_of_answered {e : Effect} (he : e ∈ o.rule.effects)
    (hwait : ∀ x ∈ e.mentions, x ∉ s.waitingVars o.id) {b : Binding} (hb : b ∈ o'.bindings)
    (hv : b.var ∈ e.mentions) : b ∈ o.bindings := by
  rcases (h.ledger'.objects o' ho').bound b hb with hd | ⟨q, hq, values, hfirst, rfl⟩
  · exact (h.shared o ho o' ho' twin b (twin.id ▸ hd) e he hv).1
  · have hqs : q ∈ o.emitted s.matcher := by
      rw [h.matcher_eq, twin.emitted]
      exact hq
    have pending : q ∉ s.registry.pending := by
      intro hp
      refine hwait q.var hv ((mem_waitingVars_iff h.keyed _ _).mpr ⟨q, ?_, ?_, rfl⟩)
      · exact (Registry.mem_pending_iff h.keyed q).mp hp
      · exact Tracked.object_of_mem_emitted hqs
    obtain ⟨known, hk⟩ := h.ledger.first?_of_not_pending h.keyed ho hqs pending
    have : known = values := by
      have := h.known q known hk
      rw [hfirst, Option.some.injEq] at this
      exact this.symm
    subst this
    obtain ⟨c, hc, hplace, -⟩ := h.ledger.exists_binding h.inbox ho hqs hk
    have var : c.var = (q.bind known).var := congrArg (fun p => p.2.1) hplace
    have hc' := mem_bindings h ho ho' twin he hc (var ▸ hv)
    rw [← (h.ledger'.objects o' ho').placed.eq_of_place hc' hb hplace]
    exact hc

/-- **Once nothing is waited for, the same is bound**, in an order of its own. -/
theorem shuffled {e : Effect} (he : e ∈ o.rule.effects)
    (hwait : ∀ x ∈ e.mentions, x ∉ s.waitingVars o.id) :
    (o.view.narrow e.mentions).Shuffled (o'.view.narrow e.mentions) where
  object := twin.id
  self := twin.self
  calls := twin.calls
  bindings := by
    have once := (nodup_of_keys (h.ledger.objects o ho).placed).filter
      fun b => e.mentions.contains b.var
    have once' := (nodup_of_keys (h.ledger'.objects o' ho').placed).filter
      fun b => e.mentions.contains b.var
    refine (List.perm_ext_iff_of_nodup once once').mpr fun b => ?_
    rw [List.mem_filter, List.mem_filter, List.contains_iff_mem]
    constructor
    · exact fun ⟨hb, hv⟩ => ⟨mem_bindings h ho ho' twin he hb hv, hv⟩
    · exact fun ⟨hb, hv⟩ => ⟨mem_bindings_of_answered h ho ho' twin he hwait hb hv, hv⟩

/-- Once nothing is waited for, the guard of an effect has one truth. -/
theorem guardTruth_eq {e : Effect} (he : e ∈ o.rule.effects) (overt : e.Overt)
    (hwait : ∀ x ∈ e.mentions, x ∉ s.waitingVars o.id)
    (hstore : ∀ g, e.predicate.guard = some g →
      ∀ name ∈ g.namesLookedUp, s.store.Same t.store name) :
    guardTruth (s.context s.store o) e.predicate =
      guardTruth (t.context t.store o') e.predicate := by
  rw [s.guardTruth_congr hstore]
  have settings : s.settings = t.settings := congrArg (fun f => f.1) h.frame
  have subtyping : s.subtyping = t.subtyping := congrArg (fun f => f.2.2) h.frame
  have view := shuffled h ho ho' twin he hwait
  have contexts : ((s.context t.store o).narrow e.mentions).Shuffled
      ((t.context t.store o').narrow e.mentions) := by
    refine ⟨view, fun p => Verdict.shuffled_of_eq ?_, subtyping, ?_⟩
    · simp only [context, ConstraintSettings.context, Context.narrow, settings]
      exact FactStore.lookup_shuffled view _ _ p
    · exact congrArg (fun c : Settings => c.constraints.maxCombinations) settings
  unfold guardTruth
  cases hg : e.predicate.guard with
  | none => rfl
  | some g =>
    have reads := overt g hg
    have here : (g.evaluate ((s.context t.store o).narrow e.mentions)) =
        g.evaluate (s.context t.store o) := g.evaluate_narrow (t.store.local_lookup _) reads
    have there : (g.evaluate ((t.context t.store o').narrow e.mentions)) =
        g.evaluate (t.context t.store o') := g.evaluate_narrow (t.store.local_lookup _) reads
    calc (g.evaluate (s.context t.store o)).truth
        = (g.evaluate ((s.context t.store o).narrow e.mentions)).truth := by rw [here]
      _ = (g.evaluate ((t.context t.store o').narrow e.mentions)).truth :=
        g.truth_evaluate_shuffled contexts
      _ = (g.evaluate (t.context t.store o')).truth := by rw [there]

/-- Once nothing is waited for, the effect has the same facts. -/
theorem factsOf_eq {d : Trigger} {e : Effect} (he : o.rule.effects[d.effect]? = some e)
    (hwait : ∀ x ∈ e.mentions, x ∉ s.waitingVars o.id) (cap : Nat) :
    o.rule.factsOf o.view cap d = o.rule.factsOf o'.view cap d := by
  have mentioned : ∀ e', o.rule.effects[d.effect]? = some e' →
      ∀ x ∈ e'.predicate.atom.mentions, x ∈ e.mentions := by
    intro e' he' x hx
    rw [he, Option.some.injEq] at he'
    subst he'
    exact List.mem_append_left _ hx
  have view := shuffled h ho ho' twin (List.mem_of_getElem? he) hwait
  rw [← o.rule.factsOf_narrow o.view cap mentioned, o.rule.factsOf_shuffled view,
    o.rule.factsOf_narrow o'.view cap mentioned]

/-- **Once nothing is waited for, an effect comes to the same.** -/
theorem fate_eq (overt : ∀ e ∈ o.rule.effects, e.Overt)
    (hstore : ∀ name ∈ o.rule.guardNames, s.store.Same t.store name) {d : Trigger}
    (hwait : ∀ e, o.rule.effects[d.effect]? = some e → ∀ x ∈ e.mentions, x ∉ s.waitingVars o.id) :
    s.fate (s.waitingVars o.id) s.store o d = t.fate (t.waitingVars o'.id) t.store o' d := by
  unfold fate
  rw [← twin.rule]
  cases he : o.rule.effects[d.effect]? with
  | none => rfl
  | some e =>
    have mem := List.mem_of_getElem? he
    have idle : e.mentions.any (s.waitingVars o.id).contains = false := by
      rw [List.any_eq_false]
      exact fun x hx hc => hwait e he x hx (List.contains_iff_mem.mp hc)
    have idle' : e.mentions.any (t.waitingVars o'.id).contains = false := by
      rw [List.any_eq_false]
      exact fun x hx hc => hwait e he x hx
        (mem_waitingVars h ho ho' twin (List.contains_iff_mem.mp hc))
    have truth := guardTruth_eq h ho ho' twin mem (overt e mem) (hwait e he) fun g hg name hn =>
      hstore name (Rule.namesLookedUp_subset he hg name hn)
    have settings : s.settings = t.settings := congrArg (fun f => f.1) h.frame
    have facts := factsOf_eq h ho ho' twin he (hwait e he)
      t.settings.constraints.maxCombinations
    simp only [idle, idle', Bool.false_eq_true, ↓reduceIte, truth, settings, facts]

end Ahead

/-- An effect is held back as long as a variable that it mentions is waited for. -/
theorem fate_of_waiting (s : Session) {waiting : List String} (store : FactStore) {o : Tracked}
    {d : Trigger} {e : Effect} (he : o.rule.effects[d.effect]? = some e) {x : String}
    (hx : x ∈ e.mentions) (hw : x ∈ waiting) : s.fate waiting store o d = .deferred := by
  have waits : e.mentions.any waiting.contains = true :=
    List.any_eq_true.mpr ⟨x, hx, List.contains_iff_mem.mpr hw⟩
  simp only [fate, he, waits, ↓reduceIte]

/-- **What waits now, comes to the same later or is held back.** -/
theorem Ahead.deferred_or_fate_eq (h : s.Ahead t answers more direct) {o o' : Tracked}
    (ho : o ∈ s.objects) (ho' : o' ∈ t.objects) (twin : o.Twin o')
    (overt : ∀ e ∈ o.rule.effects, e.Overt)
    (hstore : ∀ name ∈ o.rule.guardNames, s.store.Same t.store name) (d : Trigger) :
    s.fate (s.waitingVars o.id) s.store o d = .deferred ∨
      s.fate (s.waitingVars o.id) s.store o d = t.fate (t.waitingVars o'.id) t.store o' d := by
  by_cases hwait : ∃ e, o.rule.effects[d.effect]? = some e ∧
      ∃ x ∈ e.mentions, x ∈ s.waitingVars o.id
  · obtain ⟨e, he, x, hx, hw⟩ := hwait
    exact .inl (s.fate_of_waiting s.store he hx hw)
  · refine .inr (h.fate_eq ho ho' twin overt hstore fun e he x hx hw => ?_)
    exact hwait ⟨e, he, x, hx, hw⟩

/-- Where both know the same answers, every effect comes to the same. -/
theorem Ahead.fate_eq_of_same (h : s.Ahead t answers more direct)
    (hknown : ∀ q values, more.first? q = some values → answers.first? q = some values)
    {o o' : Tracked} (ho : o ∈ s.objects) (ho' : o' ∈ t.objects) (twin : o.Twin o')
    (overt : ∀ e ∈ o.rule.effects, e.Overt)
    (hstore : ∀ name ∈ o.rule.guardNames, s.store.Same t.store name) (d : Trigger) :
    s.fate (s.waitingVars o.id) s.store o d = t.fate (t.waitingVars o'.id) t.store o' d := by
  by_cases hwait : ∃ e, o.rule.effects[d.effect]? = some e ∧
      ∃ x ∈ e.mentions, x ∈ s.waitingVars o.id
  · obtain ⟨e, he, x, hx, hw⟩ := hwait
    have waits : x ∈ t.waitingVars o'.id :=
      (h.symm hknown).mem_waitingVars ho' ho twin.symm hw
    rw [s.fate_of_waiting s.store he hx hw,
      t.fate_of_waiting t.store (twin.rule ▸ he) hx waits]
  · refine h.fate_eq ho ho' twin overt hstore fun e he x hx hw => ?_
    exact hwait ⟨e, he, x, hx, hw⟩

end Session

end Misuse
