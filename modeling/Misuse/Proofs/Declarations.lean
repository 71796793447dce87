import Misuse.Proofs.Acceptance
import Misuse.Proofs.Blocks
import Misuse.Proofs.Reads

/-!
# Declared variables

The check of a rule looks for variables that are not declared, but not everywhere: of the label
entries of one method it sees the first only, and it does not look into the guards within
constraints, or deeper than one guard into effects. What it passes over is exactly
`Rule.overlooked` (`mem_allVars_iff`). An accepted rule declares the rest, so it declares all
its variables exactly if it declares those (`declares_all_iff`).
-/

namespace Misuse

/-! ## Label entries -/

/-- The name that a method binds its result to, if it does. -/
def Signature.resultNames (m : Signature) : List String :=
  if m.result.isBound then [m.result.name] else []

theorem Signature.same_iff (m n : Signature) : m.same n = true ↔ m.forgetResult = n.forgetResult :=
  beq_iff_eq

namespace Automaton

/-- Every entry of every label. -/
def entries (a : Automaton) : List Signature := a.transitions.flatMap Transition.label

/-- The entries whose method has an earlier entry that binds the result otherwise. -/
def shadowed (a : Automaton) : List Signature :=
  a.entries.filter fun m => decide (a.entries.find? m.same ≠ some m)

variable {a : Automaton} {m : Signature}

theorem mem_alphabet_iff : m ∈ a.alphabet ↔ a.entries.find? m.same = some m := by
  have same : (fun n : Signature => decide (n.forgetResult = m.forgetResult)) = m.same := by
    funext n
    rw [Bool.eq_iff_iff, decide_eq_true_iff, m.same_iff, eq_comm]
  rw [alphabet, mem_distinctBy_iff, same, entries]

theorem mem_shadowed_iff : m ∈ a.shadowed ↔ m ∈ a.entries ∧ m ∉ a.alphabet := by
  rw [shadowed, List.mem_filter, decide_eq_true_iff, mem_alphabet_iff]

theorem mem_entries_of_mem_alphabet (h : m ∈ a.alphabet) : m ∈ a.entries :=
  (distinctBy_sublist _ _).subset h

/-- The alphabet has an entry for every method. -/
theorem exists_alphabet_of_mem_entries (h : m ∈ a.entries) :
    ∃ n ∈ a.alphabet, n.forgetResult = m.forgetResult := by
  have key : m.forgetResult ∈ a.alphabet.map Signature.forgetResult :=
    (mem_map_distinctBy _ _ _).mpr (List.mem_map_of_mem h)
  exact List.mem_map.mp key

end Automaton

namespace Rule

/-- The entries of one method bind the same parameters. -/
theorem boundParams_eq_of_forgetResult {m n : Signature} (h : n.forgetResult = m.forgetResult) :
    n.boundParams = m.boundParams := by
  have params : n.params = m.params := (Signature.mk.inj h).2.1
  rw [Signature.boundParams, params, Signature.boundParams]

/-- Only results are passed over: what entries bind is bound by the alphabet, or is the result
of a shadowed entry. -/
theorem mem_entries_boundNames_iff {a : Automaton} {x : String} :
    x ∈ a.entries.flatMap boundNames ↔
      x ∈ a.alphabet.flatMap boundNames ∨ x ∈ a.shadowed.flatMap Signature.resultNames := by
  simp only [List.mem_flatMap]
  constructor
  · rintro ⟨m, hm, hx⟩
    by_cases seen : m ∈ a.alphabet
    · exact .inl ⟨m, seen, hx⟩
    · rcases List.mem_append.mp hx with hx | hx
      · obtain ⟨n, hn, same⟩ := Automaton.exists_alphabet_of_mem_entries hm
        refine .inl ⟨n, hn, List.mem_append_left _ ?_⟩
        rw [boundParams_eq_of_forgetResult same]
        exact hx
      · exact .inr ⟨m, Automaton.mem_shadowed_iff.mpr ⟨hm, seen⟩, hx⟩
  · rintro (⟨m, hm, hx⟩ | ⟨m, hm, hx⟩)
    · exact ⟨m, Automaton.mem_entries_of_mem_alphabet hm, hx⟩
    · exact ⟨m, (Automaton.mem_shadowed_iff.mp hm).1, List.mem_append_right _ hx⟩

end Rule

/-! ## Guards -/

namespace Constraint

/-- The variables that the guards within a constraint read, at any depth. -/
def guardReads : Constraint → List String
  | .connect l _ r => l.guardReads ++ r.guardReads
  | .guarded _ g => g.reads
  | _ => []

/-- What a constraint reads it mentions, or one of its guards reads it. -/
theorem mem_reads_iff (c : Constraint) (x : String) :
    x ∈ c.reads ↔ x ∈ c.mentions ∨ x ∈ c.guardReads := by
  induction c with
  | connect l op r ihl ihr =>
    simp only [reads, mentions, guardReads, List.mem_append, ihl, ihr]
    exact or_or_or_comm
  | guarded a g _ => simp only [reads, mentions, guardReads, List.mem_append]
  | _ => simp [reads, guardReads]

end Constraint

namespace Effect

/-- The variables of an effect, those of guards within its guard included. -/
def reads (e : Effect) : List String := e.predicate.toConstraint.reads

/-- The variables that the guards within the guard of an effect read. -/
def guardReads (e : Effect) : List String := e.predicate.guard.elim [] Constraint.guardReads

theorem mem_reads_iff (e : Effect) (x : String) :
    x ∈ e.reads ↔ x ∈ e.mentions ∨ x ∈ e.guardReads := by
  unfold reads mentions guardReads Predicate.toConstraint
  cases e.predicate.guard with
  | none => simp [Constraint.reads, Constraint.mentions]
  | some g => simp [Constraint.reads, Constraint.mem_reads_iff g, or_assoc]

end Effect

/-! ## Rules -/

namespace Rule

variable {r : Rule} {x : String}

/-- Every variable of a rule: what its label entries bind, and what its constraints and effects
read. -/
def allVars (r : Rule) : List String :=
  r.automaton.entries.flatMap boundNames ++ r.constraints.flatMap Constraint.reads
    ++ r.effects.flatMap Effect.reads

/-- The variables that the check does not look at. -/
def overlooked (r : Rule) : List String :=
  r.automaton.shadowed.flatMap Signature.resultNames
    ++ r.constraints.flatMap Constraint.guardReads ++ r.effects.flatMap Effect.guardReads

/-- **The check looks at every variable but the overlooked ones.** -/
theorem mem_allVars_iff : x ∈ r.allVars ↔ x ∈ r.referencedVars ∨ x ∈ r.overlooked := by
  have constraints : x ∈ r.constraints.flatMap Constraint.reads ↔
      x ∈ r.constraints.flatMap Constraint.mentions ∨
        x ∈ r.constraints.flatMap Constraint.guardReads := by
    simp only [List.mem_flatMap, Constraint.mem_reads_iff, and_or_left, exists_or]
  have effects : x ∈ r.effects.flatMap Effect.reads ↔
      x ∈ r.effects.flatMap Effect.mentions ∨ x ∈ r.effects.flatMap Effect.guardReads := by
    simp only [List.mem_flatMap, Effect.mem_reads_iff, and_or_left, exists_or]
  simp only [allVars, overlooked, referencedVars, Sorted.mem_ofList, List.mem_append,
    mem_entries_boundNames_iff, constraints, effects]
  tauto

/-- **What an accepted rule leaves undeclared is overlooked**, so it declares all its variables
exactly if it declares the overlooked ones. -/
theorem declares_all_iff {strict : Bool} (h : r.check strict = .ok ()) :
    (∀ x ∈ r.allVars, r.knows x = true ∨ x ∈ r.overlooked) ∧
      ((∀ x ∈ r.allVars, r.knows x = true) ↔ ∀ x ∈ r.overlooked, r.knows x = true) := by
  have accepted : r.Accepted := ⟨strict, h⟩
  refine ⟨fun x hx => ?_, ?_⟩
  · exact (mem_allVars_iff.mp hx).imp_left accepted.knows
  · simp only [mem_allVars_iff, or_imp, forall_and]
    exact and_iff_right fun x hx => accepted.knows hx

/-! ## Undeclared variables -/

/-- A cipher that declares its key, and nothing else. -/
def keyCipher (label : List Signature) (constraints : List Constraint) (effects : List Effect) :
    Rule :=
  { Rule.empty "Cipher" with
    declarations := [⟨"key", "Key"⟩]
    automaton :=
      { states := [⟨"new", false⟩, ⟨"ready", true⟩]
        initial := ["new"]
        transitions := [⟨"new", "ready", label⟩] }
    constraints, effects }

def initKey : Signature := .ofParams "Cipher.init" [⟨"key", "Key"⟩]

theorem declares_all_iff_init :
    (keyCipher [initKey] [] []).check true = .ok () ∧
      (keyCipher [initKey] [] []).allVars = ["key"] ∧
      ∀ x ∈ (keyCipher [initKey] [] []).allVars, (keyCipher [initKey] [] []).knows x = true := by
  have accepted : (keyCipher [initKey] [] []).check true = .ok () := by decide
  exact ⟨accepted, by decide, (declares_all_iff accepted).2.mpr (by decide)⟩

/-- An algorithm that no rule declares. -/
def algIsAes : Constraint := .member (.whole "alg" "String") ["AES"]

/-- A constraint under a guard, an effect whose guard has a guard, and a second entry for one
method: each of three accepted rules has a variable that is not declared. -/
theorem undeclared_of_accepted :
    let guarded := keyCipher [initKey] [.guarded ⟨"generated", [.self], false⟩ algIsAes] []
    let nested := keyCipher [initKey] []
      [⟨⟨⟨"prepared", [.self], false⟩, some (.guarded ⟨"generated", [.self], false⟩ algIsAes)⟩,
        none⟩]
    let shadowed := keyCipher [initKey, { initKey with result := ⟨"alg", "String"⟩ }] [] []
    ∀ r ∈ [guarded, nested, shadowed],
      r.check true = .ok () ∧ "alg" ∈ r.allVars ∧ r.knows "alg" = false := by
  decide

end Rule

end Misuse
