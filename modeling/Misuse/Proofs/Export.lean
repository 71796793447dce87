import Misuse.Proofs.Yaml.Parsing
import Misuse.Settings.Document

/-!
# Settings are read as they were written

Written settings are a tidy tree (`Settings.tidy_fields`), and each stage is read back from its own
part of it. So the text of accepted settings gives those settings again, and the text of others
gives their fault (`Settings.read_write`).
-/

namespace Misuse

namespace Yaml

/-! ## Values -/

variable {as : Anchors}

theorem text?_plain (name : String) : text? as (plain name) = some name := rfl

theorem flag?_flag (b : Bool) : flag? as (flag b) = some b := by
  cases b <;> rfl

theorem size?_size {limit n : Nat} (h : n ≤ limit) : size? limit as (size n) = some n :=
  Number.size?_repr h

theorem list?_ofText (texts : List String) :
    list? text? as (.list (texts.map ofText)) = some texts := by
  have each : (texts.map ofText).mapM (text? as) = some texts := by
    induction texts with
    | nil => rfl
    | cons s texts ih => simp [List.mapM_cons, ofText_text, ih]
  exact each

/-- The fields of a written record are found by their names. -/
theorem fields?_named {others : Others} {names : List String} (fields : List (String × Yaml))
    (known : ∀ f ∈ fields, f.1 ∈ names) :
    fields? others names as (named fields) = names.mapM (named? fields) := by
  have read : (plainly fields).mapM (fun f => (text? as f.1).map fun name => (name, f.2)) =
      some fields := by
    induction fields with
    | nil => rfl
    | cons f fields ih =>
      have rest := ih fun f' hf' => known f' (List.mem_cons_of_mem f hf')
      simp only [plainly, List.map_cons, List.mapM_cons, text?_plain] at rest ⊢
      simp [rest]
  have all : (fields.all fun f => names.contains f.1) = true :=
    List.all_eq_true.mpr fun f hf => List.contains_iff_mem.mpr (known f hf)
  rw [named_eq]
  simp only [fields?, Anchors.follow]
  rw [read]
  simp only [Option.bind_eq_bind, Option.bind_some, all, Bool.not_true, Bool.false_eq_true,
    and_false, ↓reduceIte]

/-- A written record is present. -/
theorem option?_named {α : Type} {read? : Anchors → Yaml → Option α} {as : Anchors} {a : α}
    {fields : List (String × Yaml)} (h : read? as (named fields) = some a) :
    option? read? as (named fields) = some (some a) := by
  have here : presence? (as.follow (named fields)) = some true := rfl
  simp [option?, here, h]

end Yaml

/-! ## Stages -/

section

variable (as : Yaml.Anchors)

theorem TypestateSettings.ofYaml?_toYaml (s : TypestateSettings) :
    ofYaml? as s.toYaml = some s := by
  have found : Yaml.fields? .ignored fieldNames as s.toYaml =
      some [some (.flag s.fuzzyMatching), some (.flag s.reportIncomplete),
        some (.flag s.strictLabels)] := by
    rw [toYaml, Yaml.fields?_named _ (by simp [fieldNames])]
    simp [fieldNames, Yaml.named?]
  simp [ofYaml?, found, Yaml.getD?, Yaml.flag?_flag]

theorem Policy.ofYaml?_toYaml {p : Policy} (keying : Sorted.Increasing p.keying)
    (unanchored : Sorted.Increasing p.unanchored) : ofYaml? as p.toYaml = some p := by
  have found : Yaml.fields? .ignored fieldNames as p.toYaml =
      some [some (.list (p.keying.map Yaml.ofText)),
        some (.list (p.unanchored.map Yaml.ofText))] := by
    rw [toYaml, Yaml.fields?_named _ (by simp [fieldNames])]
    simp [fieldNames, Yaml.named?]
  simp [ofYaml?, found, Yaml.getD?, Yaml.list?_ofText, Sorted.ofList_eq_self keying,
    Sorted.ofList_eq_self unanchored]

theorem ConstraintSettings.ofYaml?_toYaml {s : ConstraintSettings}
    (keying : Sorted.Increasing s.policy.keying)
    (unanchored : Sorted.Increasing s.policy.unanchored)
    (combinations : s.maxCombinations ≤ Integer.greatestSize) : ofYaml? as s.toYaml = some s := by
  have found : Yaml.fields? .ignored fieldNames as s.toYaml =
      some [some s.policy.toYaml, some (.size s.maxCombinations)] := by
    rw [toYaml, Yaml.fields?_named _ (by simp [fieldNames])]
    simp [fieldNames, Yaml.named?]
  simp [ofYaml?, found, Yaml.getD?, Policy.ofYaml?_toYaml as keying unanchored,
    Yaml.size?_size combinations]

theorem WorkerSettings.ofYaml?_toYaml {s : WorkerSettings}
    (workers : s.workers ≤ Integer.greatestSize)
    (threshold : s.threshold ≤ Integer.greatestSize) : ofYaml? as s.toYaml = some s := by
  have found : Yaml.fields? .ignored fieldNames as s.toYaml =
      some [some (.size s.workers), some (.size s.threshold)] := by
    rw [toYaml, Yaml.fields?_named _ (by simp [fieldNames])]
    simp [fieldNames, Yaml.named?]
  simp [ofYaml?, found, Yaml.getD?, Yaml.size?_size workers, Yaml.size?_size threshold]

end

/-! ## Settings -/

namespace Settings

/-- What the types of the fields see to: sizes are those of 64 bits, and the names are sets. -/
structure IsTyped (s : Settings) : Prop where
  combinations : s.constraints.maxCombinations ≤ Integer.greatestSize
  workers : s.workers.workers ≤ Integer.greatestSize
  threshold : s.workers.threshold ≤ Integer.greatestSize
  keying : Sorted.Increasing s.constraints.policy.keying
  unanchored : Sorted.Increasing s.constraints.policy.unanchored

/-- Every stage is read back. -/
theorem overrides_toYaml (as : Yaml.Anchors) {s : Settings} (h : s.IsTyped) :
    Overrides.ofYaml? as (Overrides.toYaml ⟨some s.typestate, some s.constraints, some s.workers⟩) =
      some ⟨some s.typestate, some s.constraints, some s.workers⟩ := by
  have found : Yaml.fields? .refused Overrides.fieldNames as
      (Overrides.toYaml ⟨some s.typestate, some s.constraints, some s.workers⟩) =
        some [some s.typestate.toYaml, some s.constraints.toYaml, some s.workers.toYaml] := by
    rw [Overrides.toYaml, Yaml.fields?_named _ (by simp [Overrides.fieldNames])]
    simp [Overrides.fieldNames, Yaml.named?]
  have typestate : Yaml.option? TypestateSettings.ofYaml? as s.typestate.toYaml =
      some (some s.typestate) := Yaml.option?_named (s.typestate.ofYaml?_toYaml as)
  have constraints : Yaml.option? ConstraintSettings.ofYaml? as s.constraints.toYaml =
      some (some s.constraints) :=
    Yaml.option?_named (ConstraintSettings.ofYaml?_toYaml as h.keying h.unanchored h.combinations)
  have workers : Yaml.option? WorkerSettings.ofYaml? as s.workers.toYaml = some (some s.workers) :=
    Yaml.option?_named (WorkerSettings.ofYaml?_toYaml as h.workers h.threshold)
  simp [Overrides.ofYaml?, found, Yaml.getD?, typestate, constraints, workers]

/-- What the settings write is the document that they are read from. -/
theorem ofYaml?_toYaml (as : Yaml.Anchors) {s : Settings} (h : s.IsTyped) :
    SettingsDocument.ofYaml? as s.toYaml = some s.toDocument := by
  have found : Yaml.fields? .refused SettingsDocument.fieldNames as s.toYaml =
      some [some (.size SettingsFault.supportedVersion), some (.ofText s.preset.name),
        some (Overrides.toYaml ⟨some s.typestate, some s.constraints, some s.workers⟩)] := by
    rw [toYaml, SettingsDocument.toYaml, Yaml.fields?_named _
      (by simp [SettingsDocument.fieldNames, toDocument])]
    simp [SettingsDocument.fieldNames, Yaml.named?, toDocument]
  have version : Yaml.option? (Yaml.size? SettingsDocument.greatestVersion) as
      (.size SettingsFault.supportedVersion) = some (some SettingsFault.supportedVersion) := by
    have written : Yaml.presence? (.size SettingsFault.supportedVersion) = some true := by decide
    have here : Yaml.presence? (as.follow (.size SettingsFault.supportedVersion)) = some true :=
      written
    have inRange : SettingsFault.supportedVersion ≤ SettingsDocument.greatestVersion := by decide
    simp [Yaml.option?, here, Yaml.size?_size inRange]
  have overrides : Yaml.option? Overrides.ofYaml? as
      (Overrides.toYaml ⟨some s.typestate, some s.constraints, some s.workers⟩) =
        some (some ⟨some s.typestate, some s.constraints, some s.workers⟩) :=
    Yaml.option?_named (overrides_toYaml as h)
  simp [SettingsDocument.ofYaml?, found, Yaml.getD?, version, overrides, Yaml.ofText_text,
    toDocument]

/-- A document that spells out every stage describes the settings, or has their fault. -/
theorem settings_toDocument (s : Settings) :
    s.toDocument.settings = s.fault?.elim (.ok s) .error := by
  have stages : s.preset.settings.overriddenBy
      ⟨some s.typestate, some s.constraints, some s.workers⟩ = s := rfl
  simp only [SettingsDocument.settings, toDocument, Preset.ofName?_name, ne_eq, not_true_eq_false,
    ↓reduceIte, Option.getD_some, stages]
  cases s.fault? <;> rfl

end Settings

/-! ## Tidy trees -/

namespace Yaml

theorem hasPair_eq_false {p q : Char → Bool} {s : List Char} (h : ∀ a ∈ s, p a = false) :
    hasPair p q s = false := by
  induction s with
  | nil => rfl
  | cons a s ih =>
    obtain ⟨first, others⟩ := List.forall_mem_cons.mp h
    cases s with
    | nil => rfl
    | cons b s => rw [hasPair, first, Bool.false_and, Bool.false_or, ih others]

theorem hasMark_eq_false {s : List Char} (h : ∀ a ∈ s, a ≠ ':' ∧ a ≠ '#') (b : Bool) :
    hasMark b s = false := by
  induction s generalizing b with
  | nil => rfl
  | cons a s ih =>
    obtain ⟨⟨noColon, noHash⟩, others⟩ := List.forall_mem_cons.mp h
    simp [hasMark, noColon, noHash, ih others]

/-- Characters that mean something in a plain text. -/
def signs : List Char := "#,[]\x7b\x7d&*!|>'\"%@`".toList ++ [':', '?', '-', '.']

/-- One word without signs is plain. -/
theorem plainHolds_of_noSigns {s : List Char}
    (h : ∀ a ∈ s, isPrintable a = true ∧ isSolid a = true ∧ a ∉ signs) : plainHolds s = true := by
  have printable : s.all isPrintable = true := List.all_eq_true.mpr fun a ha => (h a ha).1
  have noSpace : ∀ a ∈ s, isSpace a = false := fun a ha => by
    have solid := ((isSolid_iff a).mp (h a ha).2.1).1
    simp only [isGap, Bool.or_eq_false_iff] at solid
    exact solid.1
  have noBreak : ∀ a ∈ s, isBreak a = false := fun a ha => ((isSolid_iff a).mp (h a ha).2.1).2
  have other (a : Char) (ha : a ∈ s) (b : Char) (sign : b ∈ signs) : a ≠ b := by
    rintro rfl
    exact (h a ha).2.2 sign
  have unmarked : hasMark true s = false :=
    hasMark_eq_false (fun a ha => ⟨other a ha ':' (by decide), other a ha '#' (by decide)⟩) true
  have opens : opensOther s = false ∧ opensDocument s = false := by
    cases s with
    | nil => exact ⟨rfl, rfl⟩
    | cons a s =>
      have first := other a List.mem_cons_self
      have noOpening : "#,[]\x7b\x7d&*!|>'\"%@`".toList.contains a = false := by
        rw [← Bool.not_eq_true, List.contains_iff_mem]
        exact fun mem => first a (List.mem_append_left _ mem) rfl
      have noQuery : (a == '?') = false := by simpa using first '?' (by decide)
      have noDash : (a == '-') = false := by simpa using first '-' (by decide)
      constructor
      · rw [opensOther, noOpening, noQuery, noDash]
        rfl
      · simp [opensDocument, List.isPrefixOf, (first '-' (by decide)).symm,
          (first '.' (by decide)).symm]
  have oneLine : s.any isBreak = false := by simpa using noBreak
  have head : s.head?.any isSpace = false := by
    cases s with
    | nil => rfl
    | cons a s => exact noSpace a List.mem_cons_self
  have last : s.getLast?.any isSpace = false := by
    cases hs : s.getLast? with
    | none => rfl
    | some a => exact noSpace a (List.mem_of_getLast? hs)
  simp [plainHolds, singleHolds, isTame, hasPair_eq_false noSpace, hasPair_eq_false noBreak,
    printable, unmarked, opens, oneLine, head, last]

theorem digits_noSigns : ∀ k < 10, isPrintable (Nat.digitChar k) = true ∧
    isSolid (Nat.digitChar k) = true ∧ Nat.digitChar k ∉ signs := by decide

theorem tidy_size (n : Nat) : Tidy (size n) := by
  have digits : (Nat.repr n).toList = Nat.toDigits 10 n := by
    rw [Nat.repr_eq_ofList_toDigits, String.toList_ofList]
  refine .scalar _ (.plain _ ?_ (plainHolds_of_noSigns fun a ha => ?_))
  · rw [digits]
    exact Nat.toDigits_ne_nil
  · obtain ⟨k, hk, rfl⟩ := Number.mem_toDigits (by decide) (digits ▸ ha)
    exact digits_noSigns k hk

theorem tidy_flag (b : Bool) : Tidy (flag b) := by
  cases b <;> exact .scalar _ (.plain _ (by decide) (by decide))

theorem tidy_ofText (s : String) : Tidy (ofText s) := .scalar _ (fits_ofText s)

theorem tidy_texts (texts : List String) : Tidy (.list (texts.map ofText)) := by
  have scalars : texts.map ofText =
      (texts.map fun s => (⟨s, styleOf s, none⟩ : Scalar)).map .scalar := by
    rw [List.map_map]
    rfl
  rw [scalars]
  refine .list _ fun s hs => ?_
  obtain ⟨text, -, rfl⟩ := List.mem_map.mp hs
  exact fits_ofText text

end Yaml

theorem TypestateSettings.tidy_toYaml (s : TypestateSettings) : Yaml.Tidy s.toYaml := by
  refine .record _ (List.cons_ne_nil _ _) ?_ ?_
  · simp only [List.forall_mem_cons]
    decide
  · simp [Yaml.tidy_flag]

theorem Policy.tidy_toYaml (p : Policy) : Yaml.Tidy p.toYaml := by
  refine .record _ (List.cons_ne_nil _ _) ?_ ?_
  · simp only [List.forall_mem_cons]
    decide
  · simp [Yaml.tidy_texts]

theorem ConstraintSettings.tidy_toYaml (s : ConstraintSettings) : Yaml.Tidy s.toYaml := by
  refine .record _ (List.cons_ne_nil _ _) ?_ ?_
  · simp only [List.forall_mem_cons]
    decide
  · simp [Yaml.tidy_size, Policy.tidy_toYaml]

theorem WorkerSettings.tidy_toYaml (s : WorkerSettings) : Yaml.Tidy s.toYaml := by
  refine .record _ (List.cons_ne_nil _ _) ?_ ?_
  · simp only [List.forall_mem_cons]
    decide
  · simp [Yaml.tidy_size]

namespace Settings

/-- The fields that settings write. -/
def fields (s : Settings) : List (String × Yaml) :=
  [("version", .size SettingsFault.supportedVersion), ("preset", .ofText s.preset.name),
    ("overrides", .named [("typestate", s.typestate.toYaml), ("constraints", s.constraints.toYaml),
      ("parallel", s.workers.toYaml)])]

theorem isName_fields (s : Settings) : ∀ f ∈ s.fields, Yaml.IsName f.1 := by
  simp only [fields, List.forall_mem_cons]
  decide

theorem tidy_overrides (s : Settings) :
    Yaml.Tidy (Overrides.toYaml ⟨some s.typestate, some s.constraints, some s.workers⟩) := by
  refine .record [("typestate", s.typestate.toYaml), ("constraints", s.constraints.toYaml),
    ("parallel", s.workers.toYaml)] (List.cons_ne_nil _ _) ?_ ?_
  · simp only [List.forall_mem_cons]
    decide
  · simp [TypestateSettings.tidy_toYaml, ConstraintSettings.tidy_toYaml, WorkerSettings.tidy_toYaml]

theorem tidy_fields (s : Settings) : ∀ f ∈ s.fields, Yaml.Tidy f.2 := by
  simp only [fields, List.forall_mem_cons]
  exact ⟨Yaml.tidy_size _, Yaml.tidy_ofText _, s.tidy_overrides, List.forall_mem_nil _⟩

/-- The written text is read as the tree that was written. -/
theorem read?_write (s : Settings) : Yaml.read? s.write = some s.toYaml.toDocument :=
  Yaml.read?_write (List.cons_ne_nil _ _) s.isName_fields s.tidy_fields

/-- Accepted settings are read from the text that they write; from the text that others write their
fault is read. -/
theorem read_write {s : Settings} (h : s.IsTyped) :
    (s.fault? = none → Settings.read s.write = .ok s) ∧
      ∀ f, s.fault? = some f → Settings.read s.write = .error f := by
  have document : Settings.read s.write = s.toDocument.settings := by
    simp only [Settings.read, s.read?_write, ofYaml, Yaml.toDocument, ofYaml?_toYaml [] h]
  rw [document, settings_toDocument]
  constructor
  · intro accepted
    rw [accepted]
    rfl
  · intro f rejected
    rw [rejected]
    rfl

/-- Names that look like something else, and the greatest size. -/
def awkward : Settings :=
  ⟨.custom, ⟨false, true, true⟩,
    ⟨⟨["# none", "- x", "1e3", "a: b", "null", "true", "\u00e9\n b"],
      ["", " two\nlines\n", "'q'"]⟩, 64⟩,
    ⟨0, Integer.greatestSize⟩⟩

theorem isTyped_awkward : awkward.IsTyped :=
  ⟨by decide, by decide, by decide, by unfold Sorted.Increasing; decide +kernel,
    by unfold Sorted.Increasing; decide +kernel⟩

/-- The same with more workers than there may be. -/
def crowded : Settings := { awkward with workers := ⟨300, 0⟩ }

theorem read_write_awkward :
    (awkward.IsTyped ∧ awkward.fault? = none ∧ Settings.read awkward.write = .ok awkward) ∧
      crowded.IsTyped ∧ crowded.fault? = some (.workers 300) ∧
        Settings.read crowded.write = .error (.workers 300) := by
  have typed : crowded.IsTyped :=
    ⟨isTyped_awkward.combinations, by decide, by decide, isTyped_awkward.keying,
      isTyped_awkward.unanchored⟩
  have accepted : awkward.fault? = none := by decide +kernel
  have rejected : crowded.fault? = some (.workers 300) := by decide +kernel
  exact ⟨⟨isTyped_awkward, accepted, (read_write isTyped_awkward).1 accepted⟩,
    typed, rejected, (read_write typed).2 _ rejected⟩

end Settings

end Misuse
