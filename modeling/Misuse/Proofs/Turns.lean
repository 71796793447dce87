import Misuse.Proofs.Publication

/-!
# The turns of effects

The due effects of a pass have their turns one after another, object by object, and each
sees the store as those before it have left it (`storeAt`). What a pass publishes is what
the effects yield at their turns (`publishes_iff`).
-/

namespace Misuse.Session

open Publication

/-- `q` comes from `p` by just the facts of the source. -/
def Gathers (p q : Publication) (source : Fact → Prop) : Prop :=
  ∃ e w, Grows p q e w ∧ ∀ f, f ∈ e ∨ f ∈ w ↔ source f

/-- What a list of steps brings is what each brings at its turn. -/
theorem gathers_foldl {α : Type} (step : Publication → α → Publication)
    (source : Publication → α → Fact → Prop) (h : ∀ p a, Gathers p (step p a) (source p a))
    (as : List α) (p : Publication) :
    Gathers p (as.foldl step p) fun f =>
      ∃ before a after, as = before ++ a :: after ∧ source (before.foldl step p) a f := by
  induction as generalizing p with
  | nil => exact ⟨[], [], grows_of_same rfl rfl rfl, by simp⟩
  | cons a as ih =>
    obtain ⟨e, w, hg, hsource⟩ := h p a
    obtain ⟨e', w', hg', hsource'⟩ := ih (step p a)
    refine ⟨e ++ e', w ++ w', hg.trans hg', fun f => ?_⟩
    rw [List.mem_append, List.mem_append, or_or_or_comm, hsource, hsource']
    constructor
    · rintro (hf | ⟨before, b, after, rfl, hf⟩)
      · exact ⟨[], a, as, rfl, hf⟩
      · exact ⟨a :: before, b, after, rfl, hf⟩
    · rintro ⟨before, b, after, has, hf⟩
      cases before with
      | nil =>
        obtain ⟨rfl, rfl⟩ := List.cons.inj has
        exact .inl hf
      | cons c before =>
        obtain ⟨rfl, rfl⟩ := List.cons.inj has
        exact .inr ⟨before, b, after, rfl, hf⟩

variable (s : Session)

/-- The store at the turn of an effect: some objects, and some effects of its own object,
had their turns before. -/
def storeAt (before : List Tracked) (o : Tracked) (done : List Trigger) : FactStore :=
  (done.foldl (s.publishDue (s.waitingVars o.id) o)
    { before.foldl s.publishOwn ⟨s.store, 0, [], []⟩ with kept := [] }).store

/-- A due effect yields the fact at its turn. -/
def Publishes (f : Fact) : Prop :=
  ∃ before o after, s.objects = before ++ o :: after ∧
    ∃ done t rest, o.due = done ++ t :: rest ∧
      f ∈ s.yields (s.waitingVars o.id) (s.storeAt before o done) o t

theorem gathers_publishDue (waiting : List String) (o : Tracked) (p : Publication)
    (t : Trigger) :
    Gathers p (s.publishDue waiting o p t) fun f => f ∈ s.yields waiting p.store o t := by
  obtain ⟨negated, -, hg⟩ := s.grows_publishDue waiting o p t
  refine ⟨_, _, hg, fun f => ?_⟩
  cases negated <;> simp

theorem gathers_publishOwn (p : Publication) (o : Tracked) :
    Gathers p (s.publishOwn p o) fun f =>
      ∃ done t rest, o.due = done ++ t :: rest ∧
        f ∈ s.yields (s.waitingVars o.id)
          (done.foldl (s.publishDue (s.waitingVars o.id) o) { p with kept := [] }).store o t := by
  obtain ⟨e, w, hg, hsource⟩ :=
    gathers_foldl (s.publishDue (s.waitingVars o.id) o)
      (fun p t f => f ∈ s.yields (s.waitingVars o.id) p.store o t)
      (s.gathers_publishDue (s.waitingVars o.id) o) o.due { p with kept := [] }
  have h0 : Grows p { p with kept := [] } [] [] := grows_of_same rfl rfl rfl
  exact ⟨e, w, h0.trans hg, hsource⟩

/-- **A pass publishes what its effects yield at their turns.** -/
theorem publishes_iff (f : Fact) : f ∈ s.established ∨ f ∈ s.withdrawn ↔ s.Publishes f := by
  obtain ⟨e, w, hg, hsource⟩ :=
    gathers_foldl s.publishOwn _ s.gathers_publishOwn s.objects ⟨s.store, 0, [], []⟩
  obtain ⟨he, hw⟩ := eq_of_grows hg
  rw [he, hw]
  exact hsource f

theorem mem_established_iff (f : Fact) :
    f ∈ s.established ↔ s.Publishes f ∧ f.negated = false := by
  rw [← publishes_iff]
  constructor
  · exact fun hf => ⟨.inl hf, s.publication_grows.positive f hf⟩
  · rintro ⟨hf | hf, hneg⟩
    · exact hf
    · rw [s.publication_grows.negative f hf] at hneg
      cases hneg

theorem mem_withdrawn_iff (f : Fact) :
    f ∈ s.withdrawn ↔ s.Publishes f ∧ f.negated = true := by
  rw [← publishes_iff]
  constructor
  · exact fun hf => ⟨.inr hf, s.publication_grows.negative f hf⟩
  · rintro ⟨hf | hf, hneg⟩
    · rw [s.publication_grows.positive f hf] at hneg
      cases hneg
    · exact hf

end Misuse.Session
