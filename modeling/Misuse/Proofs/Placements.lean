import Misuse.Proofs.Declarations
import Misuse.Proofs.Parts

/-!
# Where constraints are placed

Each constraint that is judged has one place: it waits while a variable that it mentions is
unknown, and from then on it is direct or required, whichever it is by its own form
(`partition_advances`). Bindings are only added, so what is decided stays decided. But a constraint
does not mention what its guards read. So one may be decided while a variable of a guard is unknown,
unless the guards of the rule read nothing else (`informed_iff`), and a requirement that does not
apply is missed then (`uninformed_of_guarded`).
-/

namespace Misuse

/-! ## Growing views -/

namespace View

variable {v w : View} (grown : v.bindings <+: w.bindings)
include grown

theorem isBound_of_grown {x : String} (bound : v.isBound x = true) : w.isBound x = true := by
  obtain ⟨b, hb, hx⟩ := List.any_eq_true.mp bound
  exact List.any_eq_true.mpr ⟨b, grown.subset hb, hx⟩

/-- The first binding of some variables stays the first. -/
theorem firstSite?_of_grown {xs : List String} {site : String}
    (first : v.firstSite? xs = some site) : w.firstSite? xs = some site := by
  obtain ⟨b, hb, rfl⟩ := Option.map_eq_some_iff.mp first
  exact Option.map_eq_some_iff.mpr ⟨b, grown.find?_eq_some hb, rfl⟩

end View

/-! ## Parts -/

/-- The constraint at an index is there, and no declared exception. -/
def Rule.Judges (r : Rule) (i : Nat) : Prop :=
  ∃ c, r.constraints[i]? = some c ∧ c.isThrows = false

namespace Partition

/-- The indices of the constraints that do not wait. -/
def decided (p : Partition) : List Nat := p.direct ++ p.required.map Required.index

/-- The parts split the indices of the constraints that are judged, each in the order of the
indices, and whether a constraint is direct or required is told by its form. -/
structure Splits (p : Partition) (r : Rule) (indices : List Nat) : Prop where
  covers : ∀ i, i ∈ p.decided ++ p.pending ↔ i ∈ indices ∧ r.Judges i
  once : (p.decided ++ p.pending).Nodup
  direct : p.direct.Sublist indices
  required : (p.required.map Required.index).Sublist indices
  pending : p.pending.Sublist indices
  direct_form : ∀ i ∈ p.direct,
    ∃ c, r.constraints[i]? = some c ∧ Requirement.ofConstraint? c = none
  required_form : ∀ q ∈ p.required,
    ∃ c, r.constraints[q.index]? = some c ∧ Requirement.ofConstraint? c = some q.requirement

/-- What is decided keeps its part and its anchor, and only what waited is newly decided. -/
structure Advances (p p' : Partition) : Prop where
  direct : ∀ i ∈ p.direct, i ∈ p'.direct
  required : ∀ q ∈ p.required, ∃ q' ∈ p'.required, q'.index = q.index ∧
    q'.requirement = q.requirement ∧ ∀ site, q.anchor = some site → q'.anchor = some site
  newly_direct : ∀ i ∈ p'.direct, i ∈ p.direct ∨ i ∈ p.pending
  newly_required : ∀ q' ∈ p'.required,
    q'.index ∈ p.required.map Required.index ∨ q'.index ∈ p.pending
  pending : ∀ i ∈ p'.pending, i ∈ p.pending

end Partition

namespace Policy

/-- A variable that is bound, or only identifies. -/
def Knows (policy : Policy) (view : View) (x : String) : Prop :=
  view.isBound x = true ∨ x ∈ policy.keying

variable {policy : Policy} {r : Rule} {view : View} {c : Constraint} {indices : List Nat} {i : Nat}

theorem isReady_iff : policy.isReady view c = true ↔ ∀ x ∈ c.mentions, policy.Knows view x := by
  simp only [isReady, List.all_eq_true, Bool.or_eq_true, List.contains_iff_mem, Knows]

theorem isReady_eq_false_iff :
    policy.isReady view c = false ↔ ∃ x ∈ c.mentions, ¬ policy.Knows view x := by
  rw [← Bool.not_eq_true, isReady_iff]
  simp only [not_forall, exists_prop]

theorem Knows.of_grown {later : View} (grown : view.bindings <+: later.bindings) {x : String}
    (known : policy.Knows view x) : policy.Knows later x :=
  known.imp_left (View.isBound_of_grown grown)

theorem isReady_of_grown {later : View} (grown : view.bindings <+: later.bindings)
    (ready : policy.isReady view c = true) : policy.isReady later c = true := by
  rw [isReady_iff] at ready ⊢
  exact fun x hx => (ready x hx).of_grown grown

/-- **A constraint is decided once it is ready.** -/
theorem mem_decided_iff : i ∈ (policy.partition r view indices).decided ↔
    i ∈ indices ∧ ∃ c, r.constraints[i]? = some c ∧ c.isThrows = false ∧
      policy.isReady view c = true := by
  rw [Partition.decided, List.mem_append, mem_direct_iff, mem_required_index_iff]
  constructor
  · rintro (⟨hi, c, hc, judged, ready, -⟩ | ⟨hi, c, hc, judged, ready, -⟩) <;>
      exact ⟨hi, c, hc, judged, ready⟩
  · rintro ⟨hi, c, hc, judged, ready⟩
    cases form : Requirement.ofConstraint? c with
    | none => exact .inl ⟨hi, c, hc, judged, ready, form⟩
    | some q => exact .inr ⟨hi, c, hc, judged, ready, q, form⟩

variable (policy r view)

/-- No index has two places: its form tells direct from required, and it waits or it does not. -/
theorem nodup_partition (distinct : indices.Nodup) :
    ((policy.partition r view indices).decided ++
      (policy.partition r view indices).pending).Nodup := by
  have direct := distinct.sublist (policy.direct_sublist r view indices)
  have required := distinct.sublist (policy.required_sublist r view indices)
  have pending := distinct.sublist (policy.pending_sublist r view indices)
  rw [List.nodup_append, Partition.decided, List.nodup_append]
  refine ⟨⟨direct, required, ?_⟩, pending, ?_⟩
  · rintro i hi j hj rfl
    obtain ⟨-, c, hc, -, -, none⟩ := mem_direct_iff.mp hi
    obtain ⟨-, d, hd, -, -, q, some⟩ := mem_required_index_iff.mp hj
    obtain rfl : c = d := Option.some.inj (hc.symm.trans hd)
    cases none.symm.trans some
  · rintro i hi j hj rfl
    obtain ⟨-, c, hc, -, ready⟩ := mem_decided_iff.mp hi
    obtain ⟨-, d, hd, -, waits⟩ := mem_pending_iff.mp hj
    obtain rfl : c = d := Option.some.inj (hc.symm.trans hd)
    cases ready.symm.trans waits

theorem splits_partition (distinct : indices.Nodup) :
    (policy.partition r view indices).Splits r indices where
  covers i := by
    rw [List.mem_append, mem_decided_iff, mem_pending_iff]
    constructor
    · rintro (⟨hi, c, hc, judged, -⟩ | ⟨hi, c, hc, judged, -⟩) <;> exact ⟨hi, c, hc, judged⟩
    · rintro ⟨hi, c, hc, judged⟩
      cases ready : policy.isReady view c with
      | true => exact .inl ⟨hi, c, hc, judged, ready⟩
      | false => exact .inr ⟨hi, c, hc, judged, ready⟩
  once := policy.nodup_partition r view distinct
  direct := policy.direct_sublist r view indices
  required := policy.required_sublist r view indices
  pending := policy.pending_sublist r view indices
  direct_form i hi := by
    obtain ⟨-, c, hc, -, -, form⟩ := mem_direct_iff.mp hi
    exact ⟨c, hc, form⟩
  required_form q hq := exists_of_mem_required hq

variable (indices) {view}

theorem advances_of_grown {later : View} (grown : view.bindings <+: later.bindings) :
    (policy.partition r view indices).Advances (policy.partition r later indices) where
  -- the form of a constraint is the same in both views, and what is ready stays ready
  direct i hi := by
    obtain ⟨hi, c, hc, judged, ready, form⟩ := mem_direct_iff.mp hi
    exact mem_direct_iff.mpr ⟨hi, c, hc, judged, isReady_of_grown grown ready, form⟩
  required q hq := by
    obtain ⟨⟨hi, c, hc, judged, ready, form⟩, anchored⟩ := mem_required_iff.mp hq
    refine ⟨_, mem_required_of_ready hi hc judged (isReady_of_grown grown ready) form, rfl, rfl,
      fun site hsite => ?_⟩
    exact View.firstSite?_of_grown grown (anchored.symm.trans hsite)
  newly_direct i hi := by
    obtain ⟨hi, c, hc, judged, -, form⟩ := mem_direct_iff.mp hi
    cases ready : policy.isReady view c with
    | true => exact .inl (mem_direct_iff.mpr ⟨hi, c, hc, judged, ready, form⟩)
    | false => exact .inr (mem_pending_iff.mpr ⟨hi, c, hc, judged, ready⟩)
  newly_required q' hq := by
    obtain ⟨⟨hi, c, hc, judged, -, form⟩, -⟩ := mem_required_iff.mp hq
    cases ready : policy.isReady view c with
    | true => exact .inl (mem_required_index_iff.mpr ⟨hi, c, hc, judged, ready, _, form⟩)
    | false => exact .inr (mem_pending_iff.mpr ⟨hi, c, hc, judged, ready⟩)
  pending i hi := by
    obtain ⟨hi, c, hc, judged, waits⟩ := mem_pending_iff.mp hi
    have waited : policy.isReady view c = false := by
      by_contra ready
      rw [isReady_of_grown grown (by simpa using ready)] at waits
      cases waits
    exact mem_pending_iff.mpr ⟨hi, c, hc, judged, waited⟩

variable {indices}

/-- **Constraints are split, and only move forward.** Of distinct indices, each that has a
constraint to judge is in one part, once and in order, and no other index is. Those wait that mention
an unknown variable. As bindings are added, nothing leaves the direct or the required ones, and
nothing joins them but what has waited; which of the two it joins is told by the form of the
constraint. A requirement keeps its anchor, if it has one. -/
theorem partition_advances (distinct : indices.Nodup) (view : View) :
    (policy.partition r view indices).Splits r indices ∧
      (∀ i, i ∈ (policy.partition r view indices).pending ↔
        i ∈ indices ∧ ∃ c, r.constraints[i]? = some c ∧ c.isThrows = false ∧
          ∃ x ∈ c.mentions, ¬ policy.Knows view x) ∧
      ∀ later : View, view.bindings <+: later.bindings →
        (policy.partition r view indices).Advances (policy.partition r later indices) := by
  refine ⟨policy.splits_partition r view distinct, fun i => ?_,
    fun _ grown => policy.advances_of_grown r indices grown⟩
  simp only [mem_pending_iff, isReady_eq_false_iff]

/-- Only the key of a cipher is bound. -/
def keyView : View := ⟨"c", "c@1", [⟨"1", "key", .argument 0, [⟨.object "k@1", none⟩]⟩], []⟩

/-- Some constraints of a cipher, a declared exception among them. -/
def mixedCipher : Rule :=
  { Rule.empty "Cipher" with
    constraints :=
      [.member (.whole "alg" "String") ["AES"],
        .throws (.ofParams "Cipher.init" [⟨"key", "Key"⟩]) "InvalidKeyException",
        .atom ⟨"generated", [.var (.whole "key" "Key")], false⟩,
        .connect (.atom ⟨"prepared", [.var (.whole "iv" "IV")], false⟩) .or
          (.atom ⟨"generated", [.var (.whole "key" "Key")], false⟩)] }

/-- The other variables are bound later on. -/
theorem partition_advances_cipher :
    let alg : Binding := ⟨"2", "alg", .argument 0, [⟨.constant (.text "AES"), none⟩]⟩
    let iv : Binding := ⟨"3", "iv", .argument 0, [⟨.object "v@1", none⟩]⟩
    let later : View := { keyView with bindings := keyView.bindings ++ [alg, iv] }
    let p := default.partition mixedCipher keyView [9, 3, 2, 1, 0]
    let p' := default.partition mixedCipher later [9, 3, 2, 1, 0]
    p.decided = [2] ∧ p.pending = [3, 0] ∧ p'.direct = [0] ∧
      p'.required.map Required.index = [3, 2] ∧ p.Splits mixedCipher [9, 3, 2, 1, 0] ∧
        p.Advances p' := by
  intro alg iv later p p'
  have distinct : [9, 3, 2, 1, 0].Nodup := by decide
  obtain ⟨splits, -, advances⟩ := default.partition_advances mixedCipher distinct keyView
  have grown : keyView.bindings <+: later.bindings := List.prefix_append _ _
  exact ⟨by decide, by decide, by decide +kernel, by decide +kernel, splits,
    advances later grown⟩

end Policy

/-! ## Guards -/

/-- All that the decided constraints read is known. -/
def Partition.Informed (p : Partition) (policy : Policy) (r : Rule) (view : View) : Prop :=
  ∀ i ∈ p.decided, ∀ c, r.constraints[i]? = some c → ∀ x ∈ c.reads, policy.Knows view x

instance (p : Partition) (policy : Policy) (r : Rule) (view : View) :
    Decidable (p.Informed policy r view) :=
  inferInstanceAs (Decidable (∀ i ∈ p.decided, ∀ c ∈ r.constraints[i]?, ∀ x ∈ c.reads,
    view.isBound x = true ∨ x ∈ policy.keying))

namespace Policy

variable {policy : Policy} {r : Rule}

/-- A view that binds some variables, and nothing else. -/
def binding (xs : List String) : View :=
  ⟨"o", "o@1", xs.map fun x => ⟨"1", x, .result, []⟩, []⟩

theorem isBound_binding_iff {xs : List String} {x : String} :
    (binding xs).isBound x = true ↔ x ∈ xs := by
  simp [binding, View.isBound]

/-- If what is decided is known in each view, the guards read nothing of their own. -/
theorem guards_known_of_informed
    (informed : ∀ view indices, (policy.partition r view indices).Informed policy r view)
    {c : Constraint} (hc : c ∈ r.constraints) :
    ∀ x ∈ c.guardReads, x ∈ c.mentions ∨ x ∈ policy.keying := by
  intro x hx
  obtain ⟨i, hi⟩ := List.getElem?_of_mem hc
  have judged : c.isThrows = false := by
    cases c with
    | throws m exception => cases hx
    | _ => rfl
  -- a view that binds just what the constraint mentions makes it ready, and knows no more
  have ready : policy.isReady (binding c.mentions) c = true :=
    isReady_iff.mpr fun y hy => .inl (isBound_binding_iff.mpr hy)
  have decided : i ∈ (policy.partition r (binding c.mentions) [i]).decided :=
    mem_decided_iff.mpr ⟨List.mem_singleton_self i, c, hi, judged, ready⟩
  have known := informed (binding c.mentions) [i] i decided c hi x
    ((c.mem_reads_iff x).mpr (.inr hx))
  exact known.imp_left isBound_binding_iff.mp

/-- **What is decided may not be known.** A constraint to judge is decided exactly if all that it
mentions is known. All that it reads is known then, in every view, exactly if the guards of the rule
read nothing but what their constraint mentions, and variables that only identify. The members of a
requirement, with their guards, read nothing unknown as long as that is so. -/
theorem informed_iff (policy : Policy) (r : Rule) :
    (∀ view indices i, i ∈ (policy.partition r view indices).decided ↔
      i ∈ indices ∧ ∃ c, r.constraints[i]? = some c ∧ c.isThrows = false ∧
        ∀ x ∈ c.mentions, policy.Knows view x) ∧
      ((∀ view indices, (policy.partition r view indices).Informed policy r view) ↔
        ∀ c ∈ r.constraints, ∀ x ∈ c.guardReads, x ∈ c.mentions ∨ x ∈ policy.keying) ∧
      ∀ view indices, (policy.partition r view indices).Informed policy r view →
        ∀ q ∈ (policy.partition r view indices).required, ∀ p ∈ q.requirement.members,
          ∀ x ∈ p.toConstraint.reads, policy.Knows view x := by
  have decided (view : View) (indices : List Nat) (i : Nat) :
      i ∈ (policy.partition r view indices).decided ↔
        i ∈ indices ∧ ∃ c, r.constraints[i]? = some c ∧ c.isThrows = false ∧
          ∀ x ∈ c.mentions, policy.Knows view x := by
    simp only [mem_decided_iff, isReady_iff]
  refine ⟨decided, ⟨fun informed c hc => guards_known_of_informed informed hc, ?_⟩, ?_⟩
  · intro guards view indices i hi c hc x hx
    obtain ⟨-, d, hd, -, known⟩ := (decided view indices i).mp hi
    obtain rfl : c = d := Option.some.inj (hc.symm.trans hd)
    rcases (c.mem_reads_iff x).mp hx with hx | hx
    · exact known x hx
    · rcases guards c (List.mem_of_getElem? hc) x hx with hx | hx
      · exact known x hx
      · exact .inr hx
  · intro view indices informed q hq p hp x hx
    obtain ⟨c, hc, form⟩ := exists_of_mem_required hq
    have hi : q.index ∈ (policy.partition r view indices).decided :=
      List.mem_append_right _ (List.mem_map_of_mem hq)
    exact informed q.index hi c hc x (Requirement.reads_of_mem_members form p hp x hx)

/-- A cipher whose key has to be generated if the algorithm is AES. -/
def guardedCipher : Rule :=
  { Rule.keyCipher [.ofParams "Cipher.init" [⟨"key", "Key"⟩, ⟨"alg", "String"⟩]]
      [.guarded ⟨"generated", [.var (.whole "key" "Key")], false⟩ Rule.algIsAes] [] with
    declarations := [⟨"key", "Key"⟩, ⟨"alg", "String"⟩] }

/-- The algorithm is not known yet, and the key is reported as missing. -/
theorem uninformed_of_guarded :
    let p := default.partition guardedCipher keyView guardedCipher.constraintIndices
    guardedCipher.check true = .ok () ∧ p.decided = [0] ∧
      ¬ default.Knows keyView "alg" ∧ ¬ p.Informed default guardedCipher keyView ∧
        (guardedCipher.judge default ⟨keyView, noFacts, exactTypes, 4⟩).violations.map
          Violation.kind = [.missingPredicate] := by
  refine ⟨by decide, by decide, ?_, by decide, by decide⟩
  rintro (bound | keying)
  · cases bound
  · simp [default] at keying

end Policy

end Misuse
