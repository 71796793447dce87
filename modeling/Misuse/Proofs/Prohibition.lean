import Mathlib.Data.List.Nodup
import Misuse.Proofs.Drafting

/-!
# Banned methods of a draft

A draft bans methods openly, with alternatives, and silently, where a constraint forbids them by
`noCallTo` at any depth (`Constraint.Forbids`). Its steps come to single entries in one list of bans
(`bans_ofSteps`). An entry concerns the ban of its method alone: it adds the ban if there is none,
and if it is open it adds its alternatives and opens the ban (`Banned.enter`). So the list says of
each method whether and how it was banned, in whatever order (`bans_of_steps`).
-/

namespace Misuse

/-! ## What constraints forbid -/

/-- The predicate is somewhere in the constraint: among the operands of connectives, or in a guard. -/
inductive Predicate.OccursIn (p : Predicate) : Constraint → Prop
  | here : OccursIn p p.toConstraint
  | left {l r : Constraint} (op : Connective) (h : OccursIn p l) : OccursIn p (.connect l op r)
  | right {l r : Constraint} (op : Connective) (h : OccursIn p r) : OccursIn p (.connect l op r)
  | guard (a : Atom) {g : Constraint} (h : OccursIn p g) : OccursIn p (.guarded a g)

namespace Constraint

theorem mem_predicates_iff_occursIn (p : Predicate) (c : Constraint) :
    p ∈ c.predicates ↔ p.OccursIn c := by
  constructor
  · intro h
    induction c with
    | connect l op r ihl ihr =>
      rcases List.mem_append.mp h with h | h
      · exact .right op (ihr h)
      · exact .left op (ihl h)
    | atom a =>
      rw [List.mem_singleton.mp h]
      exact .here
    | guarded a g ih =>
      rcases List.mem_cons.mp h with rfl | h
      · exact .here
      · exact .guard a (ih h)
    | _ => exact absurd h List.not_mem_nil
  · intro h
    induction h with
    | here =>
      obtain ⟨a, guard⟩ := p
      cases guard <;> exact List.mem_cons_self ..
    | left _ _ ih => exact List.mem_append_right _ ih
    | right _ _ ih => exact List.mem_append_left _ ih
    | guard _ _ ih => exact List.mem_cons_of_mem _ ih

/-- The method is a term of a predicate `noCallTo` somewhere in the constraint. What it binds its
result to does not matter. -/
def Forbids (c : Constraint) (m : Signature) : Prop :=
  ∃ p : Predicate, p.OccursIn c ∧ p.atom.name = "noCallTo" ∧
    ∃ n, .method n ∈ p.atom.terms ∧ n.same m = true

theorem forbids_iff (c : Constraint) (m : Signature) :
    c.Forbids m ↔ m.forgetResult ∈ (Draft.forbiddenBy c).map Signature.forgetResult := by
  have named (a : Atom) : a.builtin? = some .noCallTo ↔ a.name = "noCallTo" := by
    constructor
    · intro h
      have found := List.find?_some h
      exact (beq_iff_eq.mp found).symm
    · intro h
      rw [Atom.builtin?, h]
      rfl
  have method? (n : Signature) (t : Term) : t.method? = some n ↔ t = .method n := by
    cases t <;> simp [Term.method?]
  simp only [Forbids, Draft.forbiddenBy, List.mem_map, List.mem_flatMap,
    mem_predicates_iff_occursIn, ← named, Signature.same, beq_iff_eq]
  constructor
  · rintro ⟨p, occurs, forbids, n, hn, same⟩
    exact ⟨n, ⟨p, occurs, by simpa [forbids, method?] using hn⟩, same⟩
  · rintro ⟨n, ⟨p, occurs, hn⟩, same⟩
    split at hn
    next forbids =>
      exact ⟨p, occurs, forbids, n, by simpa [method?] using hn, same⟩
    next => exact absurd hn List.not_mem_nil

end Constraint

namespace Draft

/-! ## Entries -/

/-- A ban of one method. -/
inductive Entry where
  | openly (m : Signature) (alternatives : List Signature)
  | silently (m : Signature)
  deriving DecidableEq, Repr

namespace Entry

def method : Entry → Signature
  | .openly m _ => m
  | .silently m => m

/-- The alternatives it gives for a method, if it bans it openly. -/
def given? (m : Signature) : Entry → Option (List Signature)
  | .openly n alternatives => if n.same m then some alternatives else none
  | .silently _ => none

end Entry

def enter (bans : List Ban) : Entry → List Ban
  | .openly m alternatives => banIn m alternatives bans
  | .silently m => banSilently bans m

/-- Methods are told apart by this. -/
abbrev keys (bans : List Ban) : List Signature := bans.map fun b => b.method.forgetResult

/-- What an open ban makes of another ban. -/
def opened (m : Signature) (alternatives : List Signature) (b : Ban) : Ban :=
  if b.method.same m then ⟨b.method, b.alternatives ++ alternatives, false⟩ else b

theorem method_opened (m : Signature) (alternatives : List Signature) (b : Ban) :
    (opened m alternatives b).method = b.method := by
  unfold opened
  split <;> rfl

theorem banIn_eq (m : Signature) (alternatives : List Signature) {bans : List Ban}
    (once : (keys bans).Nodup) :
    banIn m alternatives bans =
      if m.forgetResult ∈ keys bans then bans.map (opened m alternatives)
      else bans ++ [⟨m, alternatives, false⟩] := by
  induction bans with
  | nil => rfl
  | cons b bans ih =>
    obtain ⟨new, rest⟩ := List.nodup_cons.mp once
    rw [banIn]
    by_cases here : b.method.forgetResult = m.forgetResult
    · -- no further ban has the method, so none of them is opened
      have others : bans.map (opened m alternatives) = bans := by
        refine (List.map_congr_left fun b' hb' => ?_).trans (List.map_id' bans)
        have other : b'.method.forgetResult ≠ m.forgetResult := by
          intro same
          refine new (List.mem_map.mpr ⟨b', hb', ?_⟩)
          exact same.trans here.symm
        simp [opened, Signature.same, other]
      simp [opened, Signature.same, here, others]
    · have same : b.method.same m = false := by simp [Signature.same, here]
      rw [ih rest, same]
      simp only [Bool.false_eq_true, ↓reduceIte, List.map_cons, List.mem_cons, Ne.symm here,
        false_or, opened, same]
      split <;> rfl

theorem banSilently_eq (m : Signature) (bans : List Ban) :
    banSilently bans m =
      if m.forgetResult ∈ keys bans then bans else bans ++ [⟨m, [], true⟩] := by
  have known : (bans.any fun b => b.method.same m) = true ↔ m.forgetResult ∈ keys bans := by
    simp [Signature.same, List.mem_map]
  rw [banSilently]
  simp only [known]

/-! ## What the bans say -/

/-- The alternatives given for a method by those that ban it openly, in their order. -/
def given (m : Signature) (entries : List Entry) : List (List Signature) :=
  entries.filterMap (Entry.given? m)

theorem given_concat (m : Signature) (entries : List Entry) (e : Entry) :
    given m (entries ++ [e]) = given m entries ++ (e.given? m).toList := by
  rw [given, List.filterMap_append]
  cases h : e.given? m <;> simp [given, h]

theorem given_eq_nil {m : Signature} {entries : List Entry}
    (new : m.forgetResult ∉ entries.map fun e => e.method.forgetResult) : given m entries = [] := by
  refine List.filterMap_eq_nil_iff.mpr fun e he => ?_
  cases e with
  | openly n alternatives =>
    have other : n.forgetResult ≠ m.forgetResult := fun same =>
      new (List.mem_map.mpr ⟨_, he, same⟩)
    simp [Entry.given?, Signature.same, other]
  | silently n => rfl

/-- The bans say what was entered: each method once, and whether and how it was banned openly. -/
structure Banned (entries : List Entry) (bans : List Ban) : Prop where
  once : (keys bans).Nodup
  methods : ∀ k, k ∈ keys bans ↔ k ∈ entries.map fun e => e.method.forgetResult
  silent : ∀ b ∈ bans, b.silent = (given b.method entries).isEmpty
  alternatives : ∀ b ∈ bans, b.alternatives = (given b.method entries).flatten

namespace Banned

variable {entries : List Entry} {bans : List Ban}

/-- A method that was not banned yet is banned by its first entry. -/
theorem push (h : Banned entries bans) {e : Entry} {b : Ban} (method : b.method = e.method)
    (new : e.method.forgetResult ∉ keys bans) (silent : b.silent = (e.given? e.method).isNone)
    (alternatives : b.alternatives = (e.given? e.method).getD []) :
    Banned (entries ++ [e]) (bans ++ [b]) := by
  have unknown := fun hk => new ((h.methods e.method.forgetResult).mpr hk)
  -- the entry gives nothing for the methods that were banned before
  have others : ∀ b' ∈ bans, e.given? b'.method = none := by
    intro b' hb'
    have other : e.method.forgetResult ≠ b'.method.forgetResult := fun same =>
      new (List.mem_map.mpr ⟨b', hb', same.symm⟩)
    cases e with
    | openly m alternatives =>
      have different : m.same b'.method = false := beq_false_of_ne other
      simp [Entry.given?, different]
    | silently m => rfl
  constructor
  · rw [keys, List.map_append, List.map_singleton, method]
    exact (List.perm_append_singleton _ _).nodup_iff.mpr (List.nodup_cons.mpr ⟨new, h.once⟩)
  · intro k
    simp only [keys, List.map_append, List.mem_append, List.map_singleton, method]
    exact or_congr_left (h.methods k)
  · refine List.forall_mem_append.mpr ⟨fun b' hb' => ?_, List.forall_mem_singleton.mpr ?_⟩
    · rw [given_concat, others b' hb', Option.toList_none, List.append_nil]
      exact h.silent b' hb'
    · rw [given_concat, method, given_eq_nil unknown, silent]
      cases e.given? e.method <;> rfl
  · refine List.forall_mem_append.mpr ⟨fun b' hb' => ?_, List.forall_mem_singleton.mpr ?_⟩
    · rw [given_concat, others b' hb', Option.toList_none, List.append_nil]
      exact h.alternatives b' hb'
    · rw [given_concat, method, given_eq_nil unknown, alternatives]
      cases e.given? e.method <;> simp

/-- A ban that was there is opened by an open entry for its method, and stays as it was otherwise. -/
theorem change (h : Banned entries bans) {e : Entry} {f : Ban → Ban}
    (known : e.method.forgetResult ∈ keys bans) (method : ∀ b, (f b).method = b.method)
    (silent : ∀ b, (f b).silent = (b.silent && (e.given? b.method).isNone))
    (alternatives : ∀ b, (f b).alternatives = b.alternatives ++ (e.given? b.method).getD []) :
    Banned (entries ++ [e]) (bans.map f) := by
  have same : keys (bans.map f) = keys bans := by
    rw [keys, List.map_map]
    exact List.map_congr_left fun b _ => congrArg Signature.forgetResult (method b)
  constructor
  · rw [same]
    exact h.once
  · intro k
    rw [same, h.methods, List.map_append, List.mem_append, List.map_singleton, List.mem_singleton]
    refine (or_iff_left_of_imp ?_).symm
    rintro rfl
    exact (h.methods _).mp known
  · refine List.forall_mem_map.mpr fun b hb => ?_
    rw [silent, method, h.silent b hb, given_concat]
    cases e.given? b.method <;> simp
  · refine List.forall_mem_map.mpr fun b hb => ?_
    rw [alternatives, method, h.alternatives b hb, given_concat]
    cases e.given? b.method <;> simp

/-- An entry keeps the bans true to what was entered. -/
theorem enter (h : Banned entries bans) (e : Entry) :
    Banned (entries ++ [e]) (Draft.enter bans e) := by
  cases e with
  | openly m alternatives =>
    rw [Draft.enter, banIn_eq m alternatives h.once]
    split
    next known =>
      have either (b : Ban) := Bool.eq_false_or_eq_true (b.method.same m)
      have turned (b : Ban) : m.same b.method = b.method.same m := BEq.comm
      refine h.change (e := .openly m alternatives) known (method_opened m alternatives)
        (fun b => ?_) (fun b => ?_)
      all_goals
        rcases either b with same | other
        · simp [opened, Entry.given?, turned, same]
        · simp [opened, Entry.given?, turned, other]
    next new =>
      have self : m.same m = true := BEq.rfl
      exact h.push (e := .openly m alternatives) rfl new (by simp [Entry.given?, Entry.method, self])
        (by simp [Entry.given?, Entry.method, self])
  | silently m =>
    rw [Draft.enter, banSilently_eq]
    split
    next known =>
      have kept := h.change (e := .silently m) (f := id) known (fun _ => rfl)
        (fun b => (Bool.and_true b.silent).symm) (fun b => (List.append_nil b.alternatives).symm)
      rwa [List.map_id] at kept
    next new => exact h.push (e := .silently m) rfl new rfl rfl

end Banned

theorem banned_foldl_enter (entries : List Entry) : Banned entries (entries.foldl enter []) := by
  induction entries using List.reverseRecOn with
  | nil => exact ⟨List.nodup_nil, fun _ => Iff.rfl, nofun, nofun⟩
  | append_singleton entries e ih =>
    rw [List.foldl_concat]
    exact ih.enter e

/-! ## Steps -/

/-- The alternatives a step gives for a method, if it bans it openly. -/
def Step.given? (m : Signature) : Step → Option (List Signature)
  | .ban n alternatives => if n.same m then some alternatives else none
  | _ => none

/-- The constraints that a step adds, each alternative for itself. -/
def Step.constraints : Step → List Constraint
  | .constrain c => [c]
  | .require p => [p.toConstraint]
  | .requireAny ps => ps.map Predicate.toConstraint
  | _ => []

/-- What a step enters. -/
def Step.entries : Step → List Entry
  | .ban m alternatives => [.openly m alternatives]
  | .constrain c => (forbiddenBy c).map .silently
  | .require p => (forbiddenBy p.toConstraint).map .silently
  | .requireAny ps => (Constraint.anyOf? ps).elim [] fun c => (forbiddenBy c).map .silently
  | _ => []

theorem bans_constrain (d : Draft) (c : Constraint) :
    (d.constrain c).bans = ((forbiddenBy c).map Entry.silently).foldl enter d.bans := by
  rw [List.foldl_map]
  rfl

theorem bans_take (d : Draft) (s : Step) : (d.take s).bans = s.entries.foldl enter d.bans := by
  cases s with
  | constrain c => exact d.bans_constrain c
  | require p => exact d.bans_constrain p.toConstraint
  | requireAny ps =>
    simp only [take, requireAny, Step.entries]
    cases Constraint.anyOf? ps with
    | some c => exact d.bans_constrain c
    | none => rfl
  | _ => rfl

theorem bans_ofSteps (className : String) (steps : List Step) :
    (ofSteps className steps).bans = (steps.flatMap Step.entries).foldl enter [] := by
  induction steps using List.reverseRecOn with
  | nil => rfl
  | append_singleton steps s ih =>
    rw [ofSteps_concat, bans_take, ih, List.flatMap_append, List.foldl_append,
      List.flatMap_singleton]

/-- A choice forbids what one of its members forbids. -/
theorem forbids_anyOf?_iff (ps : List Predicate) (m : Signature) :
    (∃ c, Constraint.anyOf? ps = some c ∧ c.Forbids m) ↔ ∃ p ∈ ps, p.toConstraint.Forbids m := by
  have connect (l r : Constraint) (op : Connective) :
      (Constraint.connect l op r).Forbids m ↔ l.Forbids m ∨ r.Forbids m := by
    simp only [Constraint.forbids_iff, forbiddenBy, Constraint.predicates, List.flatMap_append,
      List.map_append, List.mem_append, or_comm]
  have chain (ps : List Predicate) (c : Constraint) :
      (ps.foldl (fun c q => .connect c .or q.toConstraint) c).Forbids m ↔
        c.Forbids m ∨ ∃ p ∈ ps, p.toConstraint.Forbids m := by
    induction ps generalizing c with
    | nil => simp
    | cons q ps ih =>
      rw [List.foldl_cons, ih, connect, or_assoc]
      simp
  cases ps with
  | nil => simp [Constraint.anyOf?]
  | cons p ps => simpa [Constraint.anyOf?] using chain ps p.toConstraint

theorem mem_keys_entries_iff (m : Signature) (s : Step) :
    m.forgetResult ∈ s.entries.map (fun e => e.method.forgetResult) ↔
      (s.given? m).isSome = true ∨ ∃ c ∈ s.constraints, c.Forbids m := by
  have silent (c : Constraint) : m.forgetResult ∈ ((forbiddenBy c).map Entry.silently).map
      (fun e => e.method.forgetResult) ↔ c.Forbids m := by
    rw [List.map_map, Constraint.forbids_iff]
    rfl
  cases s with
  | ban n alternatives =>
    have same : m.forgetResult = n.forgetResult ↔ n.same m = true := by
      rw [Signature.same, beq_iff_eq, eq_comm]
    by_cases h : n.same m = true <;>
      simp [Step.entries, Step.given?, Step.constraints, Entry.method, same, h]
  | constrain c =>
    simpa only [Step.entries, Step.given?, Step.constraints, Option.isSome_none, Bool.false_eq_true,
      false_or, List.mem_singleton, exists_eq_left] using silent c
  | require p =>
    simpa only [Step.entries, Step.given?, Step.constraints, Option.isSome_none, Bool.false_eq_true,
      false_or, List.mem_singleton, exists_eq_left] using silent p.toConstraint
  | requireAny ps =>
    have members : (∃ c ∈ (Step.requireAny ps).constraints, c.Forbids m) ↔
        ∃ c, Constraint.anyOf? ps = some c ∧ c.Forbids m := by
      rw [forbids_anyOf?_iff]
      simp [Step.constraints]
    rw [members, Step.entries]
    cases Constraint.anyOf? ps with
    | some c =>
      simpa only [Step.given?, Option.elim_some, Option.isSome_none, Bool.false_eq_true, false_or,
        Option.some.injEq, exists_eq_left'] using silent c
    | none => simp [Step.given?]
  | _ => simp [Step.entries, Step.given?, Step.constraints]

theorem given_entries (m : Signature) (steps : List Step) :
    given m (steps.flatMap Step.entries) = steps.filterMap (Step.given? m) := by
  have silent (c : Constraint) : given m ((forbiddenBy c).map .silently) = [] := by
    rw [given, List.filterMap_map]
    exact List.filterMap_eq_nil_iff.mpr fun _ _ => rfl
  have each (s : Step) : given m s.entries = (s.given? m).toList := by
    cases s with
    | ban n alternatives =>
      by_cases h : n.same m = true <;> simp [given, Step.entries, Step.given?, Entry.given?, h]
    | constrain c => exact silent c
    | require p => exact silent p.toConstraint
    | requireAny ps =>
      rw [Step.entries]
      cases Constraint.anyOf? ps with
      | some c => exact silent c
      | none => rfl
    | _ => rfl
  rw [given, List.filterMap_flatMap, List.filterMap_eq_flatMap_toList]
  exact congrArg steps.flatMap (funext each)

/-- **Bans do not depend on the order of declaration.** Whatever the steps of a draft, its rule bans
no method twice. It bans just the methods that a step bans openly, and those that a constraint of a
step forbids by `noCallTo` at any depth. A ban is silent exactly if no step bans its method openly,
and has the alternatives that all such steps give, one after the other. -/
theorem bans_of_steps (className : String) (steps : List Step) :
    let bans := (ofSteps className steps).finish.bans
    (bans.Pairwise fun a b => a.method.same b.method = false) ∧
      (∀ m, (∃ b ∈ bans, b.method.same m = true) ↔
        (∃ s ∈ steps, (s.given? m).isSome = true) ∨ ∃ s ∈ steps, ∃ c ∈ s.constraints, c.Forbids m) ∧
      ∀ b ∈ bans,
        (b.silent = true ↔ ∀ s ∈ steps, s.given? b.method = none) ∧
        b.alternatives = (steps.filterMap (Step.given? b.method)).flatten := by
  intro bans
  have banned : Banned (steps.flatMap Step.entries) bans := by
    have run := banned_foldl_enter (steps.flatMap Step.entries)
    rwa [← bans_ofSteps className steps] at run
  refine ⟨?_, fun m => ?_, fun b hb => ⟨?_, ?_⟩⟩
  · refine (List.pairwise_map.mp banned.once).imp fun different => ?_
    exact beq_false_of_ne different
  · have listed : (∃ b ∈ bans, b.method.same m = true) ↔ m.forgetResult ∈ keys bans := by
      simp [keys, Signature.same, List.mem_map]
    rw [listed, banned.methods, List.map_flatMap, List.mem_flatMap, ← exists_or]
    refine exists_congr fun s => ?_
    rw [mem_keys_entries_iff, and_or_left]
  · rw [banned.silent b hb, given_entries, List.isEmpty_iff, List.filterMap_eq_nil_iff]
  · rw [banned.alternatives b hb, given_entries]

end Draft

end Misuse
