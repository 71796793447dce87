import Misuse.Proofs.Misplacement

/-!
# Expected methods

The record of a misplaced call, and that of a life that ends too early, list the names of the methods
that were expected. The names are gathered from the labels that leave the states, where one method
counts once, and methods of one name do too (`mem_expectedNames_iff`). A call moves the object by
owner, name and types, exactly or on a subtype. Both come to the same: a name is listed if a call to
its method moves the object, and every call that moves the object has its name in the list
(`expects_of_record`).
-/

namespace Misuse

/-- The call is one to the very method of the entry. -/
structure Signature.Describes (entry : Signature) (called : Callee) : Prop where
  owner : entry.owner = called.owner
  name : entry.shortName = called.name
  types : entry.Takes called.types

theorem Signature.Describes.matches {entry : Signature} {called : Callee} (h : entry.Describes called)
    (m : Matcher) : m.Matches entry called := ⟨h.name, h.types, .inl h.owner⟩

namespace Rule

variable (r : Rule) (m : Matcher) (object : String) (current : List String)

/-! ## The list -/

/-- No name gets lost with the entries that bind a result otherwise. -/
theorem mem_expectedNames_iff (name : String) :
    name ∈ r.expectedNames current ↔ ∃ t ∈ r.automaton.transitions, t.source ∈ current ∧
      ∃ entry ∈ t.label, entry.shortName = name := by
  have same (e e' : Signature) (h : e.forgetResult = e'.forgetResult) :
      e.shortName = e'.shortName := by
    change e.forgetResult.shortName = e'.forgetResult.shortName
    rw [h]
  have kept (entries : List Signature) := mem_map_distinctBy_of_congr (s := entries)
    (fun e _ e' _ => same e e') name
  rw [expectedNames, mem_distinct, Automaton.expected, kept]
  simp only [List.mem_map, List.mem_flatMap, List.mem_filter, List.contains_iff_mem]
  constructor
  · rintro ⟨entry, ⟨t, ⟨ht, source⟩, he⟩, same⟩
    exact ⟨t, ht, source, entry, he, same⟩
  · rintro ⟨t, ht, source, entry, he, same⟩
    exact ⟨entry, ⟨t, ⟨ht, source⟩, he⟩, same⟩

theorem nodup_expectedNames : (r.expectedNames current).Nodup := nodup_distinct _

/-- The names of exactly those methods that move the object, each once. -/
structure Expects (names : List String) : Prop where
  nodup : names.Nodup
  moves : ∀ name ∈ names, ∃ t ∈ r.automaton.transitions, ∃ entry ∈ t.label, entry.shortName = name ∧
    ∀ call : Call, entry.Describes call.callee →
      (r.advance m object current call).progressed = true
  complete : ∀ call : Call, (r.advance m object current call).progressed = true →
    call.callee.name ∈ names

theorem expects_expectedNames : r.Expects m object current (r.expectedNames current) where
  nodup := r.nodup_expectedNames current
  moves name listed := by
    obtain ⟨t, ht, source, entry, he, same⟩ := (r.mem_expectedNames_iff current name).mp listed
    refine ⟨t, ht, entry, he, same, fun call described => ?_⟩
    exact (r.progressed_iff m object current call).mpr ⟨t, ht, source, entry, he, described.matches m⟩
  complete call moves := by
    obtain ⟨t, ht, source, entry, he, met⟩ := (r.progressed_iff m object current call).mp moves
    exact (r.mem_expectedNames_iff current _).mpr ⟨t, ht, source, entry, he, met.name⟩

/-! ## The records that show it -/

theorem expected_of_ordering {call : Call} {v : Violation}
    (h : v ∈ (r.advance m object current call).violations) (kind : v.kind = .ordering) :
    v.expected = r.expectedNames current := by
  rw [violations_advance] at h
  rcases List.mem_append.mp h with hv | hv
  · rw [kind_of_banRecord? call (Option.mem_toList.mp hv)] at kind
    cases kind
  · split at hv
    · rw [List.mem_singleton.mp hv]
      rfl
    · cases hv

theorem expected_of_completionRecord? {settings : TypestateSettings} {lastSite : Option String}
    {v : Violation} (h : r.completionRecord? settings object current lastSite = some v) :
    v.expected = r.expectedNames current := by
  unfold completionRecord? at h
  split at h
  · cases h
  · cases h
    rfl

/-- **The expected methods are exactly those that move the object.** The record of a misplaced call
and that of a life that ends too early list names without repeats. Each is the short name of an entry
such that every call to the method of the entry moves the object, and every call that moves it has
its name in the list. -/
theorem expects_of_record :
    (∀ call, ∀ v ∈ (r.advance m object current call).violations, v.kind = .ordering →
      r.Expects m object current v.expected) ∧
    ∀ settings lastSite v, r.completionRecord? settings object current lastSite = some v →
      r.Expects m object current v.expected := by
  refine ⟨fun call v hv kind => ?_, fun settings lastSite v hv => ?_⟩
  · rw [r.expected_of_ordering m object current hv kind]
    exact r.expects_expectedNames m object current
  · rw [r.expected_of_completionRecord? object current hv]
    exact r.expects_expectedNames m object current

/-! ## Names without an owner -/

/-- A script is run by a plain name or by that of its type, or loaded from anything. -/
def scriptRule : Rule :=
  { Rule.empty "Script" with
    automaton :=
      { states := [⟨"new", false⟩, ⟨"done", true⟩]
        initial := ["new"]
        transitions :=
          [⟨"new", "done", [.ofParams "run" [], ⟨"Script.run", [], ⟨"result", "Object"⟩⟩]⟩,
           ⟨"new", "new", [.ofParams "Script.load" [⟨"source", "AnyType"⟩]]⟩,
           ⟨"done", "done", [.ofParams "Script.close" []]⟩] } }

def scriptMatcher : Matcher := ⟨exactTypes, false⟩

/-- A new script that is closed, and one that is never run, should have been run or loaded. -/
theorem expects_of_record_script :
    let closed := scriptRule.advance scriptMatcher "s" ["new"] ⟨"1", ⟨"Script", "close", []⟩, "Script"⟩
    (∃ v ∈ closed.violations, v.kind = .ordering ∧ v.expected = ["run", "load"]) ∧
      (∃ v, scriptRule.completionRecord? .default "s" ["new"] none = some v ∧
        v.expected = ["run", "load"]) ∧
      scriptRule.Expects scriptMatcher "s" ["new"] ["run", "load"] := by
  intro closed
  obtain ⟨misplaced, incomplete⟩ := scriptRule.expects_of_record scriptMatcher "s" ["new"]
  have found : ∃ v ∈ closed.violations, v.kind = .ordering ∧ v.expected = ["run", "load"] := by
    decide +kernel
  obtain ⟨v, hv, kind, expected⟩ := found
  exact ⟨⟨v, hv, kind, expected⟩, ⟨_, rfl, by decide +kernel⟩, expected ▸ misplaced _ v hv kind⟩

end Rule

end Misuse
