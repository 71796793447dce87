import Mathlib.Data.List.Basic
import Misuse.Proofs.Rereading

/-!
# Which elements of a document are loaded

The rulebook of a list of rules has the last accepted one for each type
(`Rulebook.get?_load_of_ok`). This needs every element of the document to have the shape of a rule.
One element of another shape, or one that nests too deep, and none of the others is loaded
(`Rulebook.load_list`).
-/

namespace Misuse

namespace Rulebook

variable (strict : Bool)

/-! ## Insertion -/

theorem defect?_eq_none_iff {r : Rule} : defect? strict r = none ↔ r.check strict = .ok () := by
  unfold defect?
  split
  · rename_i h
    exact iff_of_true rfl h
  · rename_i h
    rw [h]
    exact iff_of_false nofun nofun

theorem find?_replaceIn (rule : Rule) (rules : List Rule) (className : String) :
    (replaceIn rule rules).find? (fun r => r.className == className) =
      if rule.className = className then some rule
      else rules.find? fun r => r.className == className := by
  induction rules with
  | nil => by_cases same : rule.className = className <;> simp [replaceIn, same]
  | cons r rules ih =>
    rw [replaceIn]
    by_cases replaced : r.className = rule.className
    · by_cases same : rule.className = className <;> simp [replaced, same]
    · have kept : ¬ (r.className == rule.className) = true := by simpa using replaced
      rw [if_neg kept, List.find?_cons, List.find?_cons, ih]
      cases first : r.className == className with
      | false => rfl
      | true =>
        have same : ¬ rule.className = className := fun same =>
          replaced ((beq_iff_eq.mp first).trans same.symm)
        simp only [if_neg same]

/-- A rule that is accepted is the rule for its type from then on. -/
theorem get?_insert (b : Rulebook) (rule : Rule) (className : String) :
    (b.insert strict rule).get? className =
      if rule.className = className ∧ defect? strict rule = none then some rule
      else b.get? className := by
  unfold insert defect? get?
  cases rule.check strict with
  | ok _ => simp [find?_replaceIn]
  | error defect => simp

theorem rejected_insert (b : Rulebook) (rule : Rule) :
    (b.insert strict rule).rejected = b.rejected ++ (defect? strict rule).toList := by
  unfold insert defect?
  cases rule.check strict <;> simp

/-- The last accepted rule for a type. -/
def latest? (rules : List Rule) (className : String) : Option Rule :=
  (rules.filter fun r => (defect? strict r).isNone).reverse.find? fun r => r.className == className

theorem get?_foldl_insert (b : Rulebook) (rules : List Rule) (className : String) :
    (rules.foldl (fun b r => b.insert strict r) b).get? className =
      (latest? strict rules className).or (b.get? className) := by
  induction rules generalizing b with
  | nil => rfl
  | cons r rules ih =>
    rw [List.foldl_cons, ih, get?_insert, latest?, latest?, List.filter_cons]
    cases accepted : defect? strict r with
    | some defect => simp
    | none => by_cases first : r.className = className <;> simp [first, List.find?_append]

theorem rejected_foldl_insert (b : Rulebook) (rules : List Rule) :
    (rules.foldl (fun b r => b.insert strict r) b).rejected =
      b.rejected ++ rules.filterMap (defect? strict) := by
  induction rules generalizing b with
  | nil => simp
  | cons r rules ih =>
    rw [List.foldl_cons, ih, rejected_insert]
    cases h : defect? strict r <;> simp [h]

/-! ## Loading -/

theorem load_of_ok {text : String} {rules : List Rule} (h : Rule.readDocument text = .ok rules)
    (name : String) :
    load strict ⟨name, some text⟩ = rules.foldl (fun b r => b.insert strict r) empty := by
  rw [load, Source.load_of_ok h, List.foldl_map]
  rfl

theorem load_of_error {text : String} {fault : DocumentFault}
    (h : Rule.readDocument text = .error fault) (name : String) :
    load strict ⟨name, some text⟩ = empty.reject (.unreadable name fault) := by
  rw [load, Source.load_of_error h]
  rfl

/-- The rulebook of rules has the last accepted rule for each type, and the defects of those that
are not accepted. -/
theorem get?_load_of_ok {text : String} {rules : List Rule} (h : Rule.readDocument text = .ok rules)
    (name : String) :
    (∀ className, (load strict ⟨name, some text⟩).get? className =
      latest? strict rules className) ∧
      (load strict ⟨name, some text⟩).rejected = rules.filterMap (defect? strict) := by
  rw [load_of_ok strict h]
  refine ⟨fun className => ?_, ?_⟩
  · rw [get?_foldl_insert]
    exact Option.or_none
  · rw [rejected_foldl_insert]
    exact List.nil_append _

end Rulebook

namespace Rule

/-! ## Elements -/

/-- The rule that a tree is on its own, if it is a rule and is accepted. -/
def accepted? (strict : Bool) (j : Json) : Option Rule :=
  if j.depth ≤ Json.documentRoom then
    (ofJson? j).filter fun r => (Rulebook.defect? strict r).isNone
  else none

theorem mapM_ofJson?_of_forall {items : List Json} (h : ∀ j ∈ items, (ofJson? j).isSome = true) :
    items.mapM ofJson? = some (items.filterMap ofJson?) := by
  induction items with
  | nil => rfl
  | cons j items ih =>
    obtain ⟨first, more⟩ := List.forall_mem_cons.mp h
    obtain ⟨r, read⟩ := Option.isSome_iff_exists.mp first
    simp [List.mapM_cons, read, ih more]

theorem mapM_ofJson?_eq_none {items : List Json} (h : ∃ j ∈ items, ofJson? j = none) :
    items.mapM ofJson? = none := by
  induction items with
  | nil => simp at h
  | cons j items ih =>
    obtain ⟨k, hk, unread⟩ := h
    obtain rfl | later := List.mem_cons.mp hk
    · simp [List.mapM_cons, unread]
    · cases read : ofJson? j <;> simp [List.mapM_cons, read, ih ⟨k, later, unread⟩]

end Rule

namespace Rulebook

section Lists

variable (strict : Bool) (name : String) {room : Nat} {text : String} {items : List Json}
  (h : Json.parse? room text = some (.list items))

include h

/-- Elements that all have the shape of a rule are loaded one by one. -/
theorem get?_load_of_shaped (fits : (Json.list items).depth ≤ Json.documentRoom)
    (shaped : ∀ j ∈ items, (Rule.ofJson? j).isSome = true) :
    (∀ className, (load strict ⟨name, some text⟩).get? className =
      (items.filterMap (Rule.accepted? strict)).reverse.find? fun r => r.className == className) ∧
      (load strict ⟨name, some text⟩).rejected =
        (items.filterMap Rule.ofJson?).filterMap (defect? strict) := by
  have document := Rule.readDocument_of_parse? h
  rw [if_pos fits, Rule.documentRules?, Json.list?, Rule.mapM_ofJson?_of_forall shaped] at document
  have elements : (items.filterMap Rule.ofJson?).filter (fun r => (defect? strict r).isNone) =
      items.filterMap (Rule.accepted? strict) := by
    rw [List.filter_filterMap]
    refine List.filterMap_congr fun j hj => ?_
    rw [Rule.accepted?, if_pos ((Json.depth_le_of_mem_items hj).trans (Nat.le_of_succ_le fits))]
  obtain ⟨found, rejected⟩ := get?_load_of_ok strict document name
  refine ⟨fun className => ?_, rejected⟩
  rw [found, latest?, elements]

/-- An element of another shape leaves only the rule that the whole list may spell. -/
theorem load_of_unread (fits : (Json.list items).depth ≤ Json.documentRoom)
    (unread : ∃ j ∈ items, Rule.ofJson? j = none) :
    load strict ⟨name, some text⟩ =
      match Rule.ofJson? (.list items) with
      | some r => empty.insert strict r
      | none => empty.reject (.unreadable name .shape) := by
  have document := Rule.readDocument_of_parse? h
  rw [if_pos fits, Rule.documentRules?, Json.list?, Rule.mapM_ofJson?_eq_none unread] at document
  cases whole : Rule.ofJson? (.list items) with
  | none =>
    rw [whole] at document
    exact load_of_error strict document name
  | some r =>
    rw [whole] at document
    exact load_of_ok strict document name

theorem load_of_deep (deep : Json.documentRoom < (Json.list items).depth) :
    load strict ⟨name, some text⟩ = empty.reject (.unreadable name .syntaxError) := by
  have document := Rule.readDocument_of_parse? h
  rw [if_neg (Nat.not_le.mpr deep)] at document
  exact load_of_error strict document name

end Lists

/-- **Which elements of a list are loaded.** If every element has the shape of a rule, and the list
does not nest too deep, each type has the last element that is an accepted rule for it on its own,
and the other elements are rejected. If one has another shape, no element is loaded; all there may
be is the one rule that the whole list spells. A list that nests too deep is refused. -/
theorem load_list (strict : Bool) (name : String) {room : Nat} {text : String} {items : List Json}
    (h : Json.parse? room text = some (.list items)) :
    let b := load strict ⟨name, some text⟩
    let accepted := items.filterMap (Rule.accepted? strict)
    ((Json.list items).depth ≤ Json.documentRoom →
      ((∀ j ∈ items, (Rule.ofJson? j).isSome = true) →
        (∀ className, b.get? className =
          accepted.reverse.find? fun r => r.className == className) ∧
        b.rejected = (items.filterMap Rule.ofJson?).filterMap (defect? strict)) ∧
      ((∃ j ∈ items, Rule.ofJson? j = none) →
        b = match Rule.ofJson? (.list items) with
          | some r => empty.insert strict r
          | none => empty.reject (.unreadable name .shape))) ∧
    (Json.documentRoom < (Json.list items).depth →
      b = empty.reject (.unreadable name .syntaxError)) :=
  ⟨fun fits => ⟨get?_load_of_shaped strict name h fits, load_of_unread strict name h fits⟩,
    load_of_deep strict name h⟩

end Rulebook

/-- A list that nests so deep. -/
def Json.nest : Nat → Json
  | 0 => .null
  | n + 1 => .list [nest n]

theorem Json.plain_nest (n : Nat) : (nest n).Plain := by
  induction n with
  | zero => exact .null
  | succ n ih => exact .list (by simpa using ih)

namespace Rulebook

/-- Two rules for one type, and between them a rule without a state. -/
def threeCiphers : List Rule :=
  [Rule.choosyCipher 1, { Rule.choosyCipher 1 with automaton := .empty }, Rule.choosyCipher 2]

theorem plain_threeCiphers : (Json.ofList Rule.toJson threeCiphers).Plain := by
  have representable : ∀ r ∈ threeCiphers, r.representable = true := by decide +kernel
  exact (Json.Restores.list fun r hr => Rule.restores (representable r hr)).plain

theorem load_list_threeCiphers :
    let text := Rule.writeDocument threeCiphers
    Json.parse? Json.documentRoom text = some (.list (threeCiphers.map Rule.toJson)) ∧
      (load true ⟨"rules", some text⟩).get? "Cipher" = some (Rule.choosyCipher 2) ∧
      (load true ⟨"rules", some text⟩).rejected = [.noInitialState "Cipher"] := by
  intro text
  have fits : (Json.ofList Rule.toJson threeCiphers).depth ≤ Json.documentRoom := by
    decide +kernel
  have h : Json.parse? Json.documentRoom text = some (.list (threeCiphers.map Rule.toJson)) :=
    Json.parse?_pretty plain_threeCiphers fits
  obtain ⟨found, rejected⟩ := ((load_list true "rules" h).1 fits).1 (by decide +kernel)
  refine ⟨h, (found "Cipher").trans (by decide +kernel), rejected.trans (by decide +kernel)⟩

/-- Next to an accepted rule, a number or a list that nests too deep: the document of both is
refused, and the rule is not loaded. -/
theorem lost_of_other_element :
    let good := (Rule.choosyCipher 1).toJson
    Rule.accepted? true good = some (Rule.choosyCipher 1) ∧
      load true ⟨"rules", some (Json.list [good, .int 7]).pretty⟩ =
        ⟨[], [.unreadable "rules" .shape]⟩ ∧
      load true ⟨"rules", some (Json.list [good, .nest 127]).pretty⟩ =
        ⟨[], [.unreadable "rules" .syntaxError]⟩ := by
  intro good
  have plain : good.Plain := (Rule.restores (by decide +kernel)).plain
  refine ⟨by decide +kernel, ?_, ?_⟩
  · have number : (Json.list [good, .int 7]).Plain :=
      .list (by simpa using ⟨plain, .int (by decide) (by decide)⟩)
    have h := Json.parse?_pretty number (Nat.le_refl _)
    rw [load_of_unread true "rules" h (by decide +kernel) ⟨.int 7, by simp, rfl⟩]
    rfl
  · have nested : (Json.list [good, .nest 127]).Plain :=
      .list (by simpa using ⟨plain, Json.plain_nest 127⟩)
    have h := Json.parse?_pretty nested (Nat.le_refl _)
    rw [load_of_deep true "rules" h (by decide +kernel)]
    rfl

end Rulebook

end Misuse
