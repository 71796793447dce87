import Mathlib.Data.List.Forall2
import Misuse.Proofs.Arrival

/-!
# Sites and the order of arrival

A finding lists its sites as the bindings have arrived. If they arrive in another order, the
same constraints fail, each with the same sites in another order; a requirement may point at
another site, since it points at the first one (`judge_alike`). The first findings of every
key correspond too (`exists_alike_of_mem_distinctBy`).
-/

namespace Misuse

/-! ## Records alike -/

namespace Violation

/-- A record without its sites. -/
def unplaced (v : Violation) : Violation := { v with sites := [] }

/-- The same record but for its sites. These come in another order; only a requirement may
point at another site. -/
structure Alike (v w : Violation) : Prop where
  unplaced : v.unplaced = w.unplaced
  sites : v.sites.Perm w.sites ∨
    v.kind ≠ .constraint ∧ v.sites.length = 1 ∧ w.sites.length = 1

theorem alike_self (v : Violation) : v.Alike v := ⟨rfl, .inl (.refl _)⟩

variable {v w : Violation}

theorem Alike.kind (h : v.Alike w) : v.kind = w.kind := congrArg (fun r => r.kind) h.unplaced

theorem Alike.symm (h : v.Alike w) : w.Alike v where
  unplaced := h.unplaced.symm
  sites := h.sites.imp List.Perm.symm fun ⟨hk, hv, hw⟩ => ⟨h.kind ▸ hk, hw, hv⟩

/-- Advisories on values are told apart without their sites. -/
theorem Alike.key_eq (h : v.Alike w) (hk : v.kind = .impreciseValue) : v.key = w.key := by
  have fields (r : Violation) (hr : r.kind = .impreciseValue) : r.key = r.unplaced.key := by
    simp [key, Violation.unplaced, hr]
  rw [fields v hk, fields w (h.kind ▸ hk), h.unplaced]

/-- A record that judging makes. -/
inductive Finding : Violation → Prop
  | constraint (rule object subject : String) (sites : List String) :
      Finding (.constraint rule object subject sites)
  | missingPredicate (rule object subject : String) (anchor : Option String) :
      Finding (.missingPredicate rule object subject anchor)
  | impreciseValue (rule object subject : String) (sites : List String) :
      Finding (.impreciseValue rule object subject sites)

/-- A finding is told by its key, unless it is an advisory. -/
theorem Finding.eq_of_key (hv : v.Finding) (hw : w.Finding) (hk : v.kind ≠ .impreciseValue)
    (h : v.key = w.key) : v = w := by
  have kind : v.kind = w.kind := congrArg Key.kind h
  cases hv with
  | constraint rule object subject sites =>
    cases hw with
    | constraint =>
      simp only [key, Violation.constraint, Key.mk.injEq, Option.some.injEq] at h
      obtain ⟨-, rfl, rfl, rfl, hsites⟩ := h
      simpa [Violation.constraint] using hsites
    | missingPredicate => cases kind
    | impreciseValue => cases kind
  | missingPredicate rule object subject anchor =>
    cases hw with
    | constraint => cases kind
    | missingPredicate =>
      simp only [key, Violation.missingPredicate, Key.mk.injEq, Option.some.injEq] at h
      obtain ⟨-, rfl, rfl, rfl, hsites⟩ := h
      simpa [Violation.missingPredicate] using hsites
    | impreciseValue => cases kind
  | impreciseValue => exact absurd rfl hk

/-- **The first findings of every key are alike if all findings are.** -/
theorem exists_alike_of_mem_distinctBy {vs ws : List Violation} (h : List.Forall₂ Alike vs ws)
    (hws : ∀ w ∈ ws, w.Finding) {v : Violation} (hv : v ∈ distinctBy key vs) :
    ∃ w ∈ distinctBy key ws, v.Alike w := by
  induction h generalizing v with
  | nil => cases hv
  | @cons a b vs ws alike _ ih =>
    obtain ⟨hb, hws⟩ := List.forall_mem_cons.mp hws
    rcases List.mem_cons.mp hv with rfl | hv
    · exact ⟨b, List.mem_cons_self .., alike⟩
    · obtain ⟨hv, hne⟩ := List.mem_filter.mp hv
      obtain ⟨w, hw, alike'⟩ := ih hws hv
      by_cases hk : w.key = b.key
      · -- only a failure that is the first one itself can be dropped here
        have kind : w.kind = b.kind := congrArg Key.kind hk
        have failure : w.kind ≠ .impreciseValue := by
          intro hw
          have : v.key = a.key := (alike'.key_eq (alike'.kind.trans hw)).trans
            (hk.trans (alike.key_eq (alike.kind.trans (kind.symm.trans hw))).symm)
          simp [this] at hne
        have finding : w.Finding := hws w ((distinctBy_sublist _ _).subset hw)
        rw [finding.eq_of_key hb failure hk] at alike'
        exact ⟨b, List.mem_cons_self .., alike'⟩
      · exact ⟨w, List.mem_cons_of_mem _ (List.mem_filter.mpr ⟨hw, by simpa using hk⟩), alike'⟩

end Violation

open Violation

/-! ## Placing constraints -/

section Views

variable {v w : View} (h : v.Shuffled w)
include h

theorem View.isBound_shuffled (x : String) : v.isBound x = w.isBound x := h.bindings.any_eq

theorem View.isSome_firstSite?_shuffled (xs : List String) :
    (v.firstSite? xs).isSome = (w.firstSite? xs).isSome := by
  simp only [firstSite?, Option.isSome_map, List.isSome_find?]
  exact h.bindings.any_eq

theorem View.lastSite?_shuffled : v.lastSite? = w.lastSite? := by
  rw [lastSite?, lastSite?, h.calls]

theorem Policy.place_shuffled (policy : Policy) (c : Constraint) :
    policy.place v c = policy.place w c := by
  have ready : policy.isReady v c = policy.isReady w c := by
    simp only [isReady, View.isBound_shuffled h]
  rw [place, place, ready]

theorem Policy.placements_shuffled (policy : Policy) (r : Rule) (indices : List Nat) :
    policy.placements r v indices = policy.placements r w indices := by
  simp only [placements, policy.place_shuffled h]

end Views

/-! ## Judging -/

namespace Rule

theorem finding_of_mem_judge {r : Rule} {policy : Policy} {ctx : Context} {v : Violation}
    (h : v ∈ (r.judge policy ctx).violations) : v.Finding := by
  rcases List.mem_append.mp h with h | h
  · obtain ⟨i, -, hi⟩ := List.mem_filterMap.mp h
    obtain ⟨c, -, hc⟩ := Option.bind_eq_some_iff.mp hi
    simp only [directRecord?] at hc
    split at hc <;> cases hc
    · exact .constraint ..
    · exact .impreciseValue ..
  · obtain ⟨q, -, hq⟩ := List.mem_filterMap.mp h
    unfold requiredRecord? at hq
    split at hq <;> cases hq
    · exact .missingPredicate ..
    · exact .impreciseValue ..

variable {ctx other : Context} (h : ctx.Shuffled other) (r : Rule)
include h

theorem sitesOrLast_shuffled {v w : Verdict} (hv : v.Shuffled w) :
    (sitesOrLast ctx.view v).Perm (sitesOrLast other.view w) := by
  unfold sitesOrLast
  rw [hv.sites.isEmpty_eq, View.lastSite?_shuffled h.view]
  split
  · exact .refl _
  · exact hv.sites

theorem directRecord?_alike (c : Constraint) :
    Option.Rel Alike (r.directRecord? ctx c) (r.directRecord? other c) := by
  have verdict := c.evaluate_shuffled h
  have sites := distinct_perm (sitesOrLast_shuffled h verdict)
  unfold directRecord?
  simp only [verdict.truth, h.view.object]
  cases (c.evaluate other).truth with
  | yes => exact .none
  | no => exact .some ⟨rfl, .inl sites⟩
  | unclear => exact .some ⟨rfl, .inl sites⟩

theorem requirementTruth_shuffled (q : Requirement) :
    requirementTruth ctx q = requirementTruth other q := by
  have truths : q.members.map (fun p => (p.evaluate ctx).truth) =
      q.members.map fun p => (p.evaluate other).truth :=
    List.map_congr_left fun p _ => p.toConstraint.truth_evaluate_shuffled h
  simp only [requirementTruth, truths]

/-- A requirement that is not met points at one site or at none. -/
theorem requiredRecord?_alike (q : Requirement) (i : Nat) {anchor anchor' : Option String}
    (ha : anchor.isSome = anchor'.isSome) :
    Option.Rel Alike (r.requiredRecord? ctx ⟨q, i, anchor⟩)
      (r.requiredRecord? other ⟨q, i, anchor'⟩) := by
  have sites : (anchor.toList).Perm anchor'.toList ∨
      anchor.toList.length = 1 ∧ anchor'.toList.length = 1 := by
    cases anchor <;> cases anchor' <;> simp_all
  have once (site : Option String) : distinct site.toList = site.toList := by
    cases site <;> rfl
  unfold requiredRecord?
  simp only [requirementTruth_shuffled h, h.view.object]
  cases requirementTruth other q with
  | yes => exact .none
  | no => exact .some ⟨rfl, sites.imp_right fun one => ⟨nofun, one⟩⟩
  | unclear =>
    simp only [impreciseValue, once]
    exact .some ⟨rfl, sites.imp_right fun one => ⟨nofun, one⟩⟩

/-- **The order of arrival has no bearing on what is found, but for the sites.** -/
theorem judge_alike (policy : Policy) :
    List.Forall₂ Alike (r.judge policy ctx).violations (r.judge policy other).violations := by
  have same {α : Type} (l : List α) : List.Forall₂ Eq l l := List.forall₂_refl l
  unfold judge judgeOnly
  refine List.rel_append ?_ ?_
  · simp only [Policy.partition, policy.placements_shuffled h.view]
    refine List.rel_filterMap ?_ (same _)
    rintro i _ rfl
    dsimp only
    cases r.constraints[i]? with
    | none => exact .none
    | some c => exact r.directRecord?_alike h c
  · simp only [Policy.partition, policy.placements_shuffled h.view, requiredRecords,
      List.filterMap_filterMap]
    refine List.rel_filterMap ?_ (same _)
    rintro ⟨i, place⟩ _ rfl
    cases place with
    | required q => exact r.requiredRecord?_alike h q i (View.isSome_firstSite?_shuffled h.view _)
    | direct => exact .none
    | pending => exact .none

end Rule

end Misuse
