import Mathlib.Data.List.Induction
import Misuse.FactStore
import Misuse.Proofs.Blocks
import Misuse.Proofs.Keys

/-!
# Replaying the log

What the index of a store answers, said from its log alone: `standing name log` replays the
facts of one name in order. A store agrees with its log (`FactStore.Agrees`) if that is so
for every name; publishing keeps it so (`Agrees.publish`), so every history of the empty store
does (`after_answers_as_log`): the visible lists are the standing ones, and a query holds if a
standing list unifies with it.
-/

namespace Misuse

/-! ## Standing lists -/

/-- What one fact does to the lists that stand. -/
def Fact.revise (standing : List Args) (f : Fact) : List Args :=
  if f.negated then standing.filter fun args => !Args.cover f.args args
  else f.args :: standing

/-- The argument lists of a name that stand after the facts of a log. -/
def standing (name : String) (log : List Fact) : List Args :=
  (log.filter fun f => f.name == name).foldl Fact.revise []

@[simp] theorem standing_nil (name : String) : standing name [] = [] := rfl

theorem standing_concat (name : String) (log : List Fact) (f : Fact) :
    standing name (log ++ [f]) =
      if f.name == name then Fact.revise (standing name log) f else standing name log := by
  cases h : f.name == name <;> simp [standing, List.filter_append, h]

theorem mem_revise_iff (st : List Args) (f : Fact) (args : Args) :
    args ∈ Fact.revise st f ↔
      if f.negated then args ∈ st ∧ Args.cover f.args args = false
      else args = f.args ∨ args ∈ st := by
  cases h : f.negated <;> simp [Fact.revise, h]

/-- A list stands only if it was established. -/
theorem exists_of_mem_standing {name : String} {log : List Fact} {args : Args}
    (h : args ∈ standing name log) :
    ∃ f ∈ log, f.negated = false ∧ f.name = name ∧ f.args = args := by
  induction log using List.reverseRecOn with
  | nil => cases h
  | append_singleton log f ih =>
    have earlier : args ∈ standing name log →
        ∃ g ∈ log ++ [f], g.negated = false ∧ g.name = name ∧ g.args = args := by
      intro h
      obtain ⟨g, hg, hrest⟩ := ih h
      exact ⟨g, List.mem_append_left _ hg, hrest⟩
    rw [standing_concat] at h
    split at h
    next hn =>
      rw [mem_revise_iff] at h
      cases hf : f.negated with
      | true =>
        simp only [hf, ↓reduceIte] at h
        exact earlier h.1
      | false =>
        simp only [hf, Bool.false_eq_true, ↓reduceIte] at h
        rcases h with rfl | h
        · exact ⟨f, List.mem_append_right _ (List.mem_singleton_self f), hf,
            beq_iff_eq.mp hn, rfl⟩
        · exact earlier h
    next => exact earlier h

/-- A list that was established and that no retraction covers stands, whatever the order. -/
theorem mem_standing_of_uncovered {name : String} {log : List Fact} {f : Fact} (hf : f ∈ log)
    (hneg : f.negated = false) (hname : f.name = name)
    (huncovered : ∀ g ∈ log, g.negated = true → g.name = name → Args.cover g.args f.args = false) :
    f.args ∈ standing name log := by
  induction log using List.reverseRecOn with
  | nil => cases hf
  | append_singleton log g ih =>
    have rest := fun g' hg' => huncovered g' (List.mem_append_left _ hg')
    have last := huncovered g (List.mem_append_right _ (List.mem_singleton_self g))
    rw [standing_concat]
    rcases List.mem_append.mp hf with hf | hf
    · split
      next hn =>
        rw [mem_revise_iff]
        cases hg : g.negated with
        | true =>
          simp only [↓reduceIte]
          exact ⟨ih hf rest, last hg (beq_iff_eq.mp hn)⟩
        | false =>
          simp only [Bool.false_eq_true, ↓reduceIte]
          exact .inr (ih hf rest)
      next => exact ih hf rest
    · obtain rfl := List.mem_singleton.mp hf
      rw [if_pos (beq_iff_eq.mpr hname), mem_revise_iff]
      simp [hneg]

/-! ## Latest facts -/

namespace Latest

/-- Each argument list has one entry, and its number is that of an earlier fact. -/
structure Within (l : Latest) (size : Nat) : Prop where
  keys : (l.map Prod.fst).Nodup
  below : ∀ e ∈ l, e.2 < size

theorem within_nil (size : Nat) : Within [] size := ⟨List.nodup_nil, by simp⟩

theorem Within.mono {l : Latest} {m n : Nat} (h : l.Within m) (hmn : m ≤ n) : l.Within n :=
  ⟨h.keys, fun e he => Nat.lt_of_lt_of_le (h.below e he) hmn⟩

theorem get?_eq_some_iff {l : Latest} {n : Nat} (h : l.Within n) (args : Args) (seq : Nat) :
    l.get? args = some seq ↔ (args, seq) ∈ l := find?_key_eq_some_iff h.keys args seq

/-- The entry of a new fact takes the place of an earlier one. -/
theorem mem_set_iff {l : Latest} {n : Nat} (h : l.Within n) (args : Args) (e : Args × Nat) :
    e ∈ l.set args n ↔ e = (args, n) ∨ e.1 ≠ args ∧ e ∈ l := by
  obtain ⟨keys, below⟩ := h
  induction l with
  | nil => simp [set]
  | cons d r ih =>
    obtain ⟨hne, keys⟩ := List.nodup_cons.mp keys
    have hr := ih keys fun e he => below e (List.mem_cons_of_mem d he)
    have hd := below d (List.mem_cons_self ..)
    by_cases hk : d.1 = args
    · have hrest : ∀ e ∈ r, e.1 ≠ args := fun e he hc =>
        hne (List.mem_map.mpr ⟨e, he, hc.trans hk.symm⟩)
      simp only [set, hk, beq_self_eq_true, ↓reduceIte, Nat.max_eq_right (Nat.le_of_lt hd),
        List.mem_cons]
      constructor
      · rintro (rfl | he)
        · exact .inl rfl
        · exact .inr ⟨hrest e he, .inr he⟩
      · rintro (rfl | ⟨hne', rfl | he⟩)
        · exact .inl rfl
        · exact absurd hk hne'
        · exact .inr he
    · simp only [set, beq_eq_false_iff_ne.mpr hk, Bool.false_eq_true, ↓reduceIte, List.mem_cons, hr]
      constructor
      · rintro (rfl | rfl | ⟨hne', he⟩)
        · exact .inr ⟨hk, .inl rfl⟩
        · exact .inl rfl
        · exact .inr ⟨hne', .inr he⟩
      · rintro (rfl | ⟨hne', rfl | he⟩)
        · exact .inr (.inl rfl)
        · exact .inl rfl
        · exact .inr (.inr ⟨hne', he⟩)

theorem within_set {l : Latest} {n : Nat} (h : l.Within n) (args : Args) :
    (l.set args n).Within (n + 1) := by
  refine ⟨?_, ?_⟩
  · obtain ⟨keys, below⟩ := h
    induction l with
    | nil => simp [set]
    | cons d r ih =>
      obtain ⟨hne, keys⟩ := List.nodup_cons.mp keys
      have below' : ∀ e ∈ r, e.2 < n := fun e he => below e (List.mem_cons_of_mem d he)
      by_cases hk : d.1 = args
      · simpa [set, hk] using ⟨by simpa [hk] using hne, keys⟩
      · simp only [set, beq_eq_false_iff_ne.mpr hk, Bool.false_eq_true, ↓reduceIte, List.map_cons,
          List.nodup_cons]
        refine ⟨?_, ih keys below'⟩
        intro hm
        obtain ⟨e, he, hd⟩ := List.mem_map.mp hm
        rcases (mem_set_iff ⟨keys, below'⟩ args e).mp he with rfl | ⟨-, he⟩
        · exact hk hd.symm
        · exact hne (List.mem_map.mpr ⟨e, he, hd⟩)
  · intro e he
    rcases (mem_set_iff h args e).mp he with rfl | ⟨-, he⟩
    · exact Nat.lt_succ_self n
    · exact Nat.lt_succ_of_lt (h.below e he)

end Latest

/-! ## The index of one name -/

namespace NameIndex

/-- An index whose numbers are below the size of the log, and whose flags know every
wildcard. -/
structure Sound (ix : NameIndex) (size : Nat) : Prop where
  established : ix.established.Within size
  retracted : ix.retracted.Within size
  wide : ix.wideEstablished = false → ∀ e ∈ ix.established, Args.hasAny e.1 = false
  wideRetracted : ix.wideRetracted = false → ∀ e ∈ ix.retracted, Args.hasAny e.1 = false

variable {ix : NameIndex} {size : Nat}

theorem sound_empty (size : Nat) : empty.Sound size :=
  ⟨Latest.within_nil size, Latest.within_nil size, by simp [empty], by simp [empty]⟩

theorem Sound.mono {m n : Nat} (h : ix.Sound m) (hmn : m ≤ n) : ix.Sound n :=
  ⟨h.established.mono hmn, h.retracted.mono hmn, h.wide, h.wideRetracted⟩

/-- The flag of a polarity still knows every wildcard after a new entry. -/
private theorem narrow_set {l : Latest} (h : l.Within size) {wide : Bool} {args : Args}
    (hw : wide = false → ∀ e ∈ l, Args.hasAny e.1 = false)
    (hn : (wide || Args.hasAny args) = false) :
    ∀ e ∈ l.set args size, Args.hasAny e.1 = false := by
  obtain ⟨hwide, hargs⟩ := Bool.or_eq_false_iff.mp hn
  intro e he
  rcases (Latest.mem_set_iff h args e).mp he with rfl | ⟨-, he⟩
  · exact hargs
  · exact hw hwide e he

theorem Sound.record (h : ix.Sound size) (args : Args) (negated : Bool) :
    (ix.record args size negated).Sound (size + 1) := by
  have up := h.mono (Nat.le_succ size)
  cases negated
  case false =>
    exact ⟨Latest.within_set h.established args, up.retracted,
      narrow_set h.established h.wide, up.wideRetracted⟩
  case true =>
    exact ⟨up.established, Latest.within_set h.retracted args, up.wide,
      narrow_set h.retracted h.wideRetracted⟩

/-- The shortcuts of visibility agree with a scan of all retractions. -/
theorem isVisible_eq_true_iff (h : ix.Sound size) (args : Args) (seq : Nat) :
    ix.isVisible args seq = true ↔
      ∀ e ∈ ix.retracted, seq < e.2 → Args.cover e.1 args = false := by
  have scan : (!(ix.retracted.any fun e => decide (e.2 > seq) && Args.cover e.1 args)) = true ↔
      ∀ e ∈ ix.retracted, seq < e.2 → Args.cover e.1 args = false := by
    simp [List.any_eq_false]
  have asIs : ix.retractedAsIs args seq = true ↔ ∃ later, (args, later) ∈ ix.retracted ∧
      seq < later := by
    simp only [← Latest.get?_eq_some_iff h.retracted, retractedAsIs]
    cases ix.retracted.get? args <;> simp
  unfold isVisible
  split
  next hr =>
    obtain ⟨later, hm, hlt⟩ := asIs.mp hr
    simp only [Bool.false_eq_true, false_iff]
    intro hall
    simpa using hall _ hm hlt
  next hr =>
    split
    next => exact scan
    next hw =>
      -- no retraction has a wildcard, so one that covers the list is the list itself
      have narrow := h.wideRetracted (Bool.eq_false_iff.mpr hw)
      simp only [true_iff]
      intro e he hlt
      rw [Bool.eq_false_iff]
      intro hc
      have : e.1 = args := (Args.cover_eq_true_iff_of_narrow (narrow e he)).mp hc
      exact hr (asIs.mpr ⟨e.2, this ▸ he, hlt⟩)

/-- The shortcut of a query agrees with a scan of all established lists. -/
theorem holds_eq_true_iff_scan (h : ix.Sound size) (query : Args) :
    ix.holds query = true ↔
      ∃ e ∈ ix.established, Args.unify e.1 query = true ∧ ix.isVisible e.1 e.2 = true := by
  unfold holds
  split
  next hn =>
    simp only [Bool.and_eq_true, Bool.not_eq_true'] at hn
    have exact_ : ∀ e ∈ ix.established, (Args.unify e.1 query = true ↔ e.1 = query) :=
      fun e he => Args.unify_eq_true_iff_of_narrow (h.wide hn.1 e he) hn.2
    cases hg : ix.established.get? query with
    | none =>
      simp only [Bool.false_eq_true, false_iff, not_exists, not_and]
      intro e he hu
      have := (Latest.get?_eq_some_iff h.established query e.2).mpr
        ((exact_ e he).mp hu ▸ he)
      simp [hg] at this
    | some seq =>
      have hm := (Latest.get?_eq_some_iff h.established query seq).mp hg
      constructor
      · intro hv
        exact ⟨_, hm, (exact_ _ hm).mpr rfl, hv⟩
      · rintro ⟨e, he, hu, hv⟩
        have hq : e.1 = query := (exact_ e he).mp hu
        have hs := (Latest.get?_eq_some_iff h.established query e.2).mpr (hq ▸ he)
        rw [hg, Option.some.injEq] at hs
        rwa [hq, ← hs] at hv
  next => simp [List.any_eq_true]

theorem mem_visible_iff (h : ix.Sound size) (args : Args) :
    args ∈ ix.visible ↔
      ∃ seq, (args, seq) ∈ ix.established ∧
        ∀ e ∈ ix.retracted, seq < e.2 → Args.cover e.1 args = false := by
  simp [visible, Sorted.mem_ofList, isVisible_eq_true_iff h]

/-- A query asks whether a visible list unifies with it. -/
theorem holds_eq_true_iff (h : ix.Sound size) (query : Args) :
    ix.holds query = true ↔ ∃ args ∈ ix.visible, Args.unify args query = true := by
  rw [holds_eq_true_iff_scan h]
  simp only [visible, Sorted.mem_ofList, List.mem_map, List.mem_filter]
  constructor
  · rintro ⟨e, he, hu, hv⟩
    exact ⟨e.1, ⟨e, ⟨he, hv⟩, rfl⟩, hu⟩
  · rintro ⟨_, ⟨e, ⟨he, hv⟩, rfl⟩, hu⟩
    exact ⟨e, he, hu, hv⟩

/-- A retraction hides the lists it covers: every established one is earlier. -/
theorem mem_visible_record_retracted (h : ix.Sound size) (r args : Args) :
    args ∈ (ix.record r size true).visible ↔ args ∈ ix.visible ∧ Args.cover r args = false := by
  rw [mem_visible_iff (h.record r true), mem_visible_iff h]
  simp only [record, ↓reduceIte, Latest.mem_set_iff h.retracted]
  constructor
  · rintro ⟨seq, hm, hall⟩
    refine ⟨⟨seq, hm, ?_⟩, hall (r, size) (.inl rfl) (h.established.below _ hm)⟩
    intro e he hlt
    by_cases hk : e.1 = r
    · exact hk ▸ hall (r, size) (.inl rfl) (h.established.below _ hm)
    · exact hall e (.inr ⟨hk, he⟩) hlt
  · rintro ⟨⟨seq, hm, hall⟩, hc⟩
    refine ⟨seq, hm, ?_⟩
    rintro e (rfl | ⟨-, he⟩) hlt
    · exact hc
    · exact hall e he hlt

/-- No retraction is later than a list that is established now. -/
theorem mem_visible_record_established (h : ix.Sound size) (a args : Args) :
    args ∈ (ix.record a size false).visible ↔ args = a ∨ args ∈ ix.visible := by
  rw [mem_visible_iff (h.record a false), mem_visible_iff h]
  simp only [record, Bool.false_eq_true, ↓reduceIte, Latest.mem_set_iff h.established,
    Prod.mk.injEq]
  constructor
  · rintro ⟨seq, ⟨rfl, -⟩ | ⟨-, hm⟩, hall⟩
    · exact .inl rfl
    · exact .inr ⟨seq, hm, hall⟩
  · intro hor
    by_cases hk : args = a
    · refine ⟨size, .inl ⟨hk, rfl⟩, ?_⟩
      intro e he hlt
      exact absurd hlt (Nat.lt_asymm (h.retracted.below e he))
    · obtain ⟨seq, hm, hall⟩ := hor.resolve_left hk
      exact ⟨seq, .inr ⟨hk, hm⟩, hall⟩

end NameIndex

/-! ## The store -/

namespace FactStore

/-- The index of a name; a name without facts has an empty one. -/
def indexFor (s : FactStore) (name : String) : NameIndex := (s.indexOf? name).getD .empty

theorem visible_eq (s : FactStore) (name : String) : s.visible name = (s.indexFor name).visible := by
  unfold visible indexFor
  cases s.indexOf? name <;> rfl

theorem query_eq (s : FactStore) (name : String) (args : Args) :
    s.query name args = (s.indexFor name).holds args := by
  unfold query indexFor
  cases s.indexOf? name with
  | none => cases h : Args.hasAny args <;> simp [NameIndex.holds, NameIndex.empty, Latest.get?, h]
  | some ix => rfl

theorem find?_recordIn (f : Fact) (seq : Nat) (index : List (String × NameIndex)) (name : String) :
    (((recordIn f seq index).find? fun e => e.1 == name).map Prod.snd).getD .empty =
      if f.name == name then
        ((((index.find? fun e => e.1 == name).map Prod.snd).getD .empty).record f.args seq f.negated)
      else ((index.find? fun e => e.1 == name).map Prod.snd).getD .empty := by
  induction index with
  | nil => cases h : f.name == name <;> simp [recordIn, h]
  | cons e r ih =>
    obtain ⟨n, ix⟩ := e
    by_cases hn : n = f.name
    · subst hn
      cases h : f.name == name <;> simp [recordIn, h]
    · have step : recordIn f seq ((n, ix) :: r) = (n, ix) :: recordIn f seq r := by
        simp [recordIn, hn]
      rw [step]
      by_cases hname : n = name
      · have hf : f.name ≠ name := fun hc => hn (hname.trans hc.symm)
        simp [hname, hf]
      · simpa [hname] using ih

theorem indexFor_publish (s : FactStore) (f : Fact) (name : String) :
    (s.publish f).indexFor name =
      if f.name == name then (s.indexFor name).record f.args s.size f.negated
      else s.indexFor name :=
  find?_recordIn f s.size s.index name

/-- Every index answers as the replay of the log does. -/
structure Agrees (s : FactStore) : Prop where
  sound : ∀ name, (s.indexFor name).Sound s.size
  standing : ∀ name args, args ∈ s.visible name ↔ args ∈ standing name s.log

variable {s : FactStore}

theorem agrees_empty : empty.Agrees :=
  ⟨fun _ => NameIndex.sound_empty _, fun _ _ => by simp [empty, visible, indexOf?]⟩

/-- Publishing a fact revises the visible lists of its name, and of no other. -/
theorem Agrees.mem_visible_publish (h : s.Agrees) (f : Fact) (name : String) (args : Args) :
    args ∈ (s.publish f).visible name ↔
      if f.name == name then
        if f.negated then args ∈ s.visible name ∧ Args.cover f.args args = false
        else args = f.args ∨ args ∈ s.visible name
      else args ∈ s.visible name := by
  simp only [visible_eq, indexFor_publish]
  cases f.name == name
  case false => rfl
  case true =>
    cases f.negated
    case false => exact NameIndex.mem_visible_record_established (h.sound name) f.args args
    case true => exact NameIndex.mem_visible_record_retracted (h.sound name) f.args args

theorem Agrees.publish (h : s.Agrees) (f : Fact) : (s.publish f).Agrees := by
  have hsize : (s.publish f).size = s.size + 1 := by simp [FactStore.publish, size]
  refine ⟨?_, ?_⟩
  · intro name
    rw [indexFor_publish, hsize]
    split
    · exact (h.sound name).record f.args f.negated
    · exact (h.sound name).mono (Nat.le_succ _)
  · intro name args
    rw [h.mem_visible_publish, h.standing]
    change _ ↔ args ∈ Misuse.standing name (s.log ++ [f])
    rw [standing_concat]
    split
    · rw [mem_revise_iff]
    · rfl

theorem Agrees.publishAll (h : s.Agrees) (fs : List Fact) : (s.publishAll fs).Agrees := by
  induction fs generalizing s with
  | nil => exact h
  | cons f fs ih => exact ih (h.publish f)

theorem Agrees.retractAll (h : s.Agrees) (fs : List Fact) : (s.retractAll fs).Agrees :=
  h.publishAll _

theorem Agrees.query_eq_true_iff (h : s.Agrees) (name : String) (q : Args) :
    s.query name q = true ↔ ∃ args ∈ s.visible name, Args.unify args q = true := by
  rw [query_eq, visible_eq, NameIndex.holds_eq_true_iff (h.sound name)]

/-- Established facts join the visible lists of their names. -/
theorem Agrees.mem_visible_publishAll (h : s.Agrees) {fs : List Fact}
    (hfs : ∀ f ∈ fs, f.negated = false) (name : String) (args : Args) :
    args ∈ (s.publishAll fs).visible name ↔
      args ∈ s.visible name ∨ ∃ f ∈ fs, f.name = name ∧ f.args = args := by
  induction fs generalizing s with
  | nil => simp [FactStore.publishAll]
  | cons f fs ih =>
    obtain ⟨hf, hfs⟩ := List.forall_mem_cons.mp hfs
    change args ∈ ((s.publish f).publishAll fs).visible name ↔ _
    rw [ih (h.publish f) hfs, h.mem_visible_publish, hf]
    by_cases hn : f.name = name
    · simp only [hn, beq_self_eq_true, ↓reduceIte, Bool.false_eq_true, List.mem_cons,
        exists_eq_or_imp, true_and, eq_comm (a := f.args), or_assoc, or_left_comm]
    · simp [hn]

/-- Retractions hide the lists of their names that one of them covers. -/
theorem Agrees.mem_visible_retractAll (h : s.Agrees) (fs : List Fact) (name : String)
    (args : Args) :
    args ∈ (s.retractAll fs).visible name ↔
      args ∈ s.visible name ∧ ∀ f ∈ fs, f.name = name → Args.cover f.args args = false := by
  induction fs generalizing s with
  | nil => simp [FactStore.retractAll, FactStore.publishAll]
  | cons f fs ih =>
    change args ∈ ((s.publish { f with negated := true }).retractAll fs).visible name ↔ _
    rw [ih (h.publish _), h.mem_visible_publish, List.forall_mem_cons]
    by_cases hn : f.name = name
    · simp [hn, and_assoc]
    · simp [hn]

/-- What is visible once facts are established, and others retracted after them. -/
theorem Agrees.mem_visible_phases (h : s.Agrees) {es : List Fact}
    (hes : ∀ f ∈ es, f.negated = false) (ws : List Fact) (name : String) (args : Args) :
    args ∈ ((s.publishAll es).retractAll ws).visible name ↔
      (args ∈ s.visible name ∨ ∃ f ∈ es, f.name = name ∧ f.args = args) ∧
        ∀ f ∈ ws, f.name = name → Args.cover f.args args = false := by
  rw [(h.publishAll es).mem_visible_retractAll, h.mem_visible_publishAll hes]

/-- Nothing holds of a name that no fact establishes. -/
theorem Agrees.query_of_absent (h : s.Agrees) {name : String}
    (hn : ∀ f ∈ s.log, f.negated = false → f.name ≠ name) (q : Args) :
    s.query name q = false := by
  rw [Bool.eq_false_iff, ne_eq, h.query_eq_true_iff]
  rintro ⟨args, hargs, -⟩
  obtain ⟨f, hf, hneg, hname, -⟩ := exists_of_mem_standing ((h.standing name args).mp hargs)
  exact hn f hf hneg hname

/-- Where the same facts and more are in the log, what no retraction covers is visible again. -/
theorem Agrees.mem_visible_of_uncovered (h : s.Agrees) {t : FactStore} (ht : t.Agrees)
    (hlog : ∀ f ∈ s.log, f ∈ t.log) {name : String} {args : Args} (hargs : args ∈ s.visible name)
    (huncovered : ∀ g ∈ t.log, g.negated = true → g.name = name → Args.cover g.args args = false) :
    args ∈ t.visible name := by
  obtain ⟨f, hf, hneg, hname, rfl⟩ := exists_of_mem_standing ((h.standing name args).mp hargs)
  exact (ht.standing name f.args).mpr (mem_standing_of_uncovered (hlog f hf) hneg hname huncovered)

theorem increasing_visible (s : FactStore) (name : String) :
    Sorted.Increasing (s.visible name) := by
  rw [visible_eq]
  exact Sorted.increasing_ofList _

/-- Facts of other names leave the index of a name as it is. -/
theorem indexFor_publishAll_of_ne {fs : List Fact} {name : String} (h : ∀ f ∈ fs, f.name ≠ name)
    (s : FactStore) : (s.publishAll fs).indexFor name = s.indexFor name := by
  induction fs generalizing s with
  | nil => rfl
  | cons f fs ih =>
    have hf : (f.name == name) = false := beq_eq_false_iff_ne.mpr (h f (List.mem_cons_self ..))
    change ((s.publish f).publishAll fs).indexFor name = _
    rw [ih fun g hg => h g (List.mem_cons_of_mem f hg), indexFor_publish, hf]
    rfl

theorem log_publishAll (s : FactStore) (fs : List Fact) : (s.publishAll fs).log = s.log ++ fs := by
  induction fs generalizing s with
  | nil => simp [publishAll]
  | cons f fs ih =>
    change ((s.publish f).publishAll fs).log = _
    simp [ih, publish]

/-! ## Histories -/

/-- What can be done to a store. -/
inductive Op where
  | publish (f : Fact)
  | retract (fs : List Fact)

/-- The facts an operation adds to the log. -/
def Op.facts : Op → List Fact
  | .publish f => [f]
  | .retract fs => fs.map fun f => { f with negated := true }

def perform (s : FactStore) : Op → FactStore
  | .publish f => s.publish f
  | .retract fs => s.retractAll fs

/-- The store after operations on the empty one. -/
def after (ops : List Op) : FactStore := ops.foldl perform empty

theorem perform_eq (s : FactStore) (op : Op) : s.perform op = s.publishAll op.facts := by
  cases op <;> rfl

theorem foldl_perform (ops : List Op) (s : FactStore) :
    ops.foldl perform s = s.publishAll (ops.flatMap Op.facts) := by
  induction ops generalizing s with
  | nil => rfl
  | cons op ops ih =>
    rw [List.foldl_cons, ih, perform_eq, List.flatMap_cons]
    simp [publishAll]

theorem agrees_after (ops : List Op) : (after ops).Agrees := by
  rw [after, foldl_perform]
  exact agrees_empty.publishAll _

/-- **The index answers as its log does.** After any history the log holds the facts in
order, the visible lists of a name are the increasing list of those that stand after its
replay, a query holds if one of them unifies with it, and facts of other names change
neither. -/
theorem after_answers_as_log (ops : List Op) (name : String) :
    (after ops).log = ops.flatMap Op.facts ∧
    Sorted.Increasing ((after ops).visible name) ∧
    (∀ args, args ∈ (after ops).visible name ↔
      args ∈ Misuse.standing name (after ops).log) ∧
    (∀ q, (after ops).query name q = true ↔
      ∃ args ∈ Misuse.standing name (after ops).log, Args.unify args q = true) ∧
    (∀ op : Op, (∀ f ∈ op.facts, f.name ≠ name) →
      (after (ops ++ [op])).visible name = (after ops).visible name ∧
      ∀ q, (after (ops ++ [op])).query name q = (after ops).query name q) := by
  have hafter : after ops = empty.publishAll (ops.flatMap Op.facts) := foldl_perform ops empty
  have h : (after ops).Agrees := hafter ▸ agrees_empty.publishAll _
  refine ⟨?_, increasing_visible _ _, h.standing name, ?_, ?_⟩
  · rw [hafter, log_publishAll]
    rfl
  · intro q
    simp only [h.query_eq_true_iff, h.standing]
  · intro op hop
    have frame : (after (ops ++ [op])).indexFor name = (after ops).indexFor name := by
      have : after (ops ++ [op]) = (after ops).publishAll op.facts := by
        simp [after, List.foldl_append, perform_eq]
      rw [this, indexFor_publishAll_of_ne hop]
    exact ⟨by rw [visible_eq, visible_eq, frame], fun q => by rw [query_eq, query_eq, frame]⟩

/-- A key is established, and so is every value; then the key is retracted. -/
theorem after_answers_as_log_keys :
    let origin : Origin := ⟨"Key", "k", "ready", "1"⟩
    let ops : List Op :=
      [.publish ⟨"made", [.object "k"], false, origin⟩, .publish ⟨"made", [.any], false, origin⟩,
       .retract [⟨"made", [.object "k"], false, origin⟩]]
    let op : Op := .retract [⟨"read", [.any], false, origin⟩]
    (∀ f ∈ op.facts, f.name ≠ "made") ∧
      (after ops).visible "made" = [[.any]] ∧
      (after (ops ++ [op])).visible "made" = (after ops).visible "made" := by
  intro origin ops op
  have other : ∀ f ∈ op.facts, f.name ≠ "made" := by decide
  exact ⟨other, by decide, ((after_answers_as_log ops "made").2.2.2.2 op other).1⟩

end FactStore

end Misuse
