import Misuse.Proofs.Documents
import Misuse.Rule.Draft
import Misuse.Rulebook

/-!
# Rules written and read again

A written list of rules is read again as the same rules, unless its tree is deeper than documents
may be (`Source.load_writeDocument`). Nothing keeps rules from being that deep: a choice of 62
predicates already is (`Rule.too_deep_of_anyOf?`).
-/

namespace Misuse

namespace Rule

/-- A text that spells a tree is read up to the depth that documents may have. -/
theorem readDocument_of_parse? {room : Nat} {text : String} {j : Json}
    (h : Json.parse? room text = some j) :
    readDocument text =
      if j.depth ≤ Json.documentRoom then
        match documentRules? j with
        | some rules => .ok rules
        | none => .error .shape
      else .error .syntaxError := by
  rw [readDocument, Json.first?_of_parse? h]
  by_cases fits : j.depth ≤ Json.documentRoom
  · rw [if_pos fits, if_pos fits]
    cases rules : documentRules? j <;> simp only [rules, ↓reduceIte]
  · rw [if_neg fits, if_neg fits]

theorem readDocument_writeDocument {rules : List Rule}
    (h : ∀ r ∈ rules, r.representable = true) :
    readDocument (writeDocument rules) =
      if (Json.ofList toJson rules).depth ≤ Json.documentRoom then .ok rules
      else .error .syntaxError := by
  have document := Json.Restores.list fun r hr => restores (h r hr)
  have read : documentRules? (Json.ofList toJson rules) = some rules := by
    rw [documentRules?, document.read]
  have spelled := Json.parse?_pretty document.plain (Nat.le_refl _)
  rw [writeDocument, readDocument_of_parse? spelled, read]

end Rule

namespace Source

theorem load_of_ok {text : String} {rules : List Rule} (h : Rule.readDocument text = .ok rules)
    (name : String) : load ⟨name, some text⟩ = rules.map .ok := by
  simp only [load, h]

theorem load_of_error {text : String} {fault : DocumentFault}
    (h : Rule.readDocument text = .error fault) (name : String) :
    load ⟨name, some text⟩ = [.error (.unreadable name fault)] := by
  simp only [load, h]

/-- **What is written is read again**: each rule once, in order and the same in every part, exactly
if the document is not deeper than documents may be. A deeper one is refused as a whole. -/
theorem load_writeDocument (name : String) {rules : List Rule}
    (h : ∀ r ∈ rules, r.representable = true) :
    load ⟨name, some (Rule.writeDocument rules)⟩ =
      if (Json.ofList Rule.toJson rules).depth ≤ Json.documentRoom then rules.map .ok
      else [.error (.unreadable name .syntaxError)] := by
  have read := Rule.readDocument_writeDocument h
  split
  · rename_i fits
    rw [if_pos fits] at read
    exact load_of_ok read name
  · rename_i deep
    rw [if_neg deep] at read
    exact load_of_error read name

end Source

/-- A store of keys, with a bound result, a part of a value, literals, guards, a scope and a silent
ban. -/
def keyStore : Rule :=
  let entry : Variable := (Variable.whole "alias" "String").algorithm
  let size : Constraint :=
    .compare (.lift (.literal (.array [.int (-1), .bool true, .null]))) .lt
      ⟨.length entry, .mod, .literal (.text "\"8\"\n")⟩
  { Rule.empty "KeyStore" with
    declarations := [⟨"alias", "String"⟩, ⟨"key", "Key"⟩]
    bans := [⟨.ofParams "KeyStore.wipe" [], [.ofParams "KeyStore.delete" []], true⟩]
    automaton :=
      { states := [⟨"new", false⟩, ⟨"loaded", true⟩]
        initial := ["new"]
        transitions :=
          [⟨"new", "loaded", [⟨"KeyStore.get", [⟨"alias", "String"⟩], ⟨"key", "Key"⟩⟩]⟩] }
    constraints :=
      [.connect (.member entry ["main"]) .implies (.guarded ⟨"stored", [.wildcard], true⟩ size),
       .throws (.ofParams "KeyStore.get" []) "KeyStoreException"]
    effects := [⟨⟨⟨"loadedFrom", [.var entry, .self], false⟩, some size⟩, some ["loaded", "new"]⟩] }

theorem Source.load_writeDocument_keyStore :
    (∀ r ∈ [keyStore, keyStore], r.representable = true) ∧
      Source.load ⟨"rules", some (Rule.writeDocument [keyStore, keyStore])⟩ =
        [.ok keyStore, .ok keyStore] := by
  have representable : ∀ r ∈ [keyStore, keyStore], r.representable = true := by decide +kernel
  have shallow : (Json.ofList Rule.toJson [keyStore, keyStore]).depth ≤ Json.documentRoom := by
    decide +kernel
  exact ⟨representable, (load_writeDocument "rules" representable).trans (if_pos shallow)⟩

/-! ## Depths of rules -/

namespace Constraint

theorem depth_toConstraint (p : Predicate) : 3 ≤ p.toConstraint.toJson.depth := by
  obtain ⟨a, guard⟩ := p
  cases guard <;>
    simp only [Predicate.toConstraint, toJson, Atom.toJson, Json.choose, Json.ofList, Json.depth,
      Json.depthOfFields] <;> omega

/-- Each further predicate to choose from makes the tree deeper by two. -/
theorem depth_foldl_or (c : Constraint) (ps : List Predicate) :
    c.toJson.depth + 2 * ps.length ≤
      (ps.foldl (fun c q => .connect c .or q.toConstraint) c).toJson.depth := by
  induction ps generalizing c with
  | nil => exact Nat.le_refl _
  | cons p ps ih =>
    have deeper : c.toJson.depth + 2 ≤ (connect c .or p.toConstraint).toJson.depth := by
      simp only [toJson, Json.choose, Json.depth, Json.depthOfFields]
      omega
    have more := ih (.connect c .or p.toConstraint)
    simp only [List.length_cons, List.foldl_cons]
    omega

theorem depth_anyOf? {ps : List Predicate} {c : Constraint} (h : anyOf? ps = some c) :
    2 * ps.length + 1 ≤ c.toJson.depth := by
  cases ps with
  | nil => cases h
  | cons p ps =>
    cases h
    have first := depth_toConstraint p
    have more := depth_foldl_or p.toConstraint ps
    rw [List.length_cons]
    omega

end Constraint

namespace Rule

theorem depth_of_mem_constraints {r : Rule} {c : Constraint} (h : c ∈ r.constraints) :
    c.toJson.depth + 2 ≤ r.toJson.depth := by
  have member := Json.depth_le_of_mem_items (List.mem_map_of_mem (f := Constraint.toJson) h)
  simp only [toJson, Json.ofList, Json.depth, Json.depthOfFields]
  omega

/-- A document with a choice of 62 predicates or more is deeper than documents may be. -/
theorem too_deep_of_anyOf? {rules : List Rule} {r : Rule} (hr : r ∈ rules) {ps : List Predicate}
    {c : Constraint} (hc : c ∈ r.constraints) (choice : Constraint.anyOf? ps = some c)
    (many : 62 ≤ ps.length) : Json.documentRoom < (Json.ofList toJson rules).depth := by
  have document := Json.depth_le_of_mem_items (List.mem_map_of_mem (f := toJson) hr)
  have rule := depth_of_mem_constraints hc
  have constraint := Constraint.depth_anyOf? choice
  simp only [Json.ofList, Json.depth, Json.documentRoom]
  omega

/-- A cipher that requires one of so many keys to be generated. -/
def choosyCipher (n : Nat) : Rule :=
  let opened := ((Draft.start "Cipher").initialState "new").state "ready" true
  let called := opened.transition "new" [.ofParams "Cipher.init" []] "ready"
  (called.requireAny (List.replicate n (.plain "generated" [.self]))).finish

theorem constraints_choosyCipher (n : Nat) :
    (choosyCipher n).constraints =
      (Constraint.anyOf? (List.replicate n (.plain "generated" [.self]))).toList := by
  simp only [choosyCipher, Draft.finish, Draft.requireAny]
  split
  · rename_i c choice
    rw [choice]
    rfl
  · rename_i choice
    rw [choice]
    rfl

theorem too_deep_choosyCipher {n : Nat} (many : 62 ≤ n) :
    Json.documentRoom < (Json.ofList toJson [choosyCipher n]).depth := by
  cases choice : Constraint.anyOf? (List.replicate n (.plain "generated" [.self])) with
  | none =>
    obtain ⟨n, rfl⟩ := Nat.exists_eq_add_of_le' (Nat.lt_of_lt_of_le (by decide : 0 < 62) many)
    cases choice
  | some c =>
    have constraint : c ∈ (choosyCipher n).constraints := by
      rw [constraints_choosyCipher, choice]
      exact List.mem_singleton_self c
    refine too_deep_of_anyOf? (List.mem_singleton_self _) constraint choice ?_
    rw [List.length_replicate]
    exact many

/-- A rule with 61 predicates to choose from is written and read again. With one more it is
accepted as before, and its document is refused. -/
theorem unreadable_of_written :
    (∀ n ∈ [61, 62], (choosyCipher n).check true = .ok () ∧
      (choosyCipher n).representable = true) ∧
      readDocument (writeDocument [choosyCipher 61]) = .ok [choosyCipher 61] ∧
      ∀ name, Source.load ⟨name, some (writeDocument [choosyCipher 62])⟩ =
        [.error (.unreadable name .syntaxError)] := by
  have accepted : ∀ n ∈ [61, 62], (choosyCipher n).check true = .ok () ∧
      (choosyCipher n).representable = true := by
    decide +kernel
  have written (n : Nat) (hn : n ∈ [61, 62]) :=
    readDocument_writeDocument (List.forall_mem_singleton.mpr (accepted n hn).2)
  refine ⟨accepted, ?_, fun name => ?_⟩
  · rw [written 61 (by decide), if_pos (by decide +kernel)]
  · have refused := written 62 (by decide)
    rw [if_neg (Nat.not_le.mpr (too_deep_choosyCipher (Nat.le_refl 62)))] at refused
    exact Source.load_of_error refused name

end Rule

end Misuse
