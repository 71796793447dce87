import Misuse.Proofs.Lookups

/-!
# The order of facts within a phase

A pass establishes its facts first and retracts afterwards. The index numbers every fact, so
each order of the facts leaves another index. But what is visible in the end depends on
which facts were established and which were retracted only, and stores that show the same lists
answer alike whatever is done to them (`Alike.performAll`). So the order within a phase never
shows (`answers_of_permuted_phases`). The order of the phases does.
-/

namespace Misuse.FactStore

/-- Two stores that answer as their logs do and show the same lists of every name. -/
structure Alike (s t : FactStore) : Prop where
  left : s.Agrees
  right : t.Agrees
  visible : ∀ name args, args ∈ s.visible name ↔ args ∈ t.visible name

namespace Alike

variable {s t : FactStore}

theorem visible_eq (h : s.Alike t) (name : String) : s.visible name = t.visible name := by
  apply Sorted.eq_of_mem_iff
  · exact increasing_visible s name
  · exact increasing_visible t name
  · exact h.visible name

theorem query_eq (h : s.Alike t) (name : String) (q : Args) : s.query name q = t.query name q :=
  same_of_visible h.left h.right (h.visible_eq name) q

/-- A fact has the same effect on what both show, whatever its number. -/
theorem publish (h : s.Alike t) (f : Fact) : (s.publish f).Alike (t.publish f) := by
  refine ⟨h.left.publish f, h.right.publish f, fun name args => ?_⟩
  rw [h.left.mem_visible_publish, h.right.mem_visible_publish, h.visible]

theorem publishAll (h : s.Alike t) (fs : List Fact) : (s.publishAll fs).Alike (t.publishAll fs) := by
  induction fs generalizing s t with
  | nil => exact h
  | cons f fs ih => exact ih (h.publish f)

/-- Stores that show the same answer alike from then on. -/
theorem performAll (h : s.Alike t) (ops : List Op) :
    (ops.foldl perform s).Alike (ops.foldl perform t) := by
  rw [foldl_perform, foldl_perform]
  exact h.publishAll (ops.flatMap Op.facts)

end Alike

/-- **Which facts are established and which are retracted decides what is shown.** -/
theorem Agrees.alike_phases {s : FactStore} (h : s.Agrees) {es es' ws ws' : List Fact}
    (positive : ∀ f ∈ es, f.negated = false) (he : ∀ f, f ∈ es ↔ f ∈ es')
    (hw : ∀ f, f ∈ ws ↔ f ∈ ws') :
    ((s.publishAll es).retractAll ws).Alike ((s.publishAll es').retractAll ws') := by
  have positive' : ∀ f ∈ es', f.negated = false := by
    intro f hf
    apply positive
    exact (he f).mpr hf
  refine ⟨(h.publishAll es).retractAll ws, (h.publishAll es').retractAll ws', fun name args => ?_⟩
  rw [h.mem_visible_phases positive, h.mem_visible_phases positive']
  simp only [he, hw]

/-- A history with a phase of facts, one by one, and a phase of retractions after it. -/
theorem after_phases (ops : List Op) (es ws : List Fact) (more : List Op) :
    after (ops ++ es.map .publish ++ .retract ws :: more) =
      more.foldl perform (((after ops).publishAll es).retractAll ws) := by
  have published : ∀ s : FactStore, (es.map .publish).foldl perform s = s.publishAll es := by
    intro s
    rw [List.foldl_map]
    rfl
  unfold after
  rw [List.foldl_append, List.foldl_append, published, List.foldl_cons]
  rfl

/-- **The order of facts within a phase never shows.** After any history, establish facts and
then retract others, each in any order, and go on as you like: the visible lists and the answers
to all queries are the same. -/
theorem answers_of_permuted_phases (ops : List Op) {es es' ws ws' : List Fact}
    (positive : ∀ f ∈ es, f.negated = false) (he : es.Perm es') (hw : ws.Perm ws')
    (more : List Op) (name : String) :
    let left := after (ops ++ es.map .publish ++ .retract ws :: more)
    let right := after (ops ++ es'.map .publish ++ .retract ws' :: more)
    left.visible name = right.visible name ∧ ∀ q, left.query name q = right.query name q := by
  intro left right
  have same : left.Alike right := by
    show (after _).Alike (after _)
    rw [after_phases, after_phases]
    apply Alike.performAll
    exact (agrees_after ops).alike_phases positive (fun _ => he.mem_iff) fun _ => hw.mem_iff
  exact ⟨same.visible_eq name, same.query_eq name⟩

/-- Two keys and every value are established, one key twice, over an earlier retraction of
every value; then one key is retracted, and what is not there. Were the phases to change places,
the key would be visible. -/
theorem answers_of_permuted_phases_keys :
    let made (args : Args) : Fact := ⟨"made", args, false, ⟨"Key", "k", "ready", "1"⟩⟩
    let ops : List Op := [.publish (made [.object "a"]), .retract [made [.any]]]
    let es := [made [.object "a"], made [.any], made [.object "b"], made [.object "a"]]
    let es' := [made [.object "b"], made [.object "a"], made [.object "a"], made [.any]]
    let ws := [made [.object "b"], made [.any, .any]]
    let left := after (ops ++ es.map Op.publish ++ [Op.retract ws])
    let right := after (ops ++ es'.map Op.publish ++ [Op.retract ws.reverse])
    (∀ f ∈ es, f.negated = false) ∧ es.Perm es' ∧ ws.Perm ws.reverse ∧
      left.visible "made" = right.visible "made" ∧
      left.visible "made" = [[.object "a"], [.any]] ∧ left.index ≠ right.index ∧
      (after (ops ++ Op.retract ws :: es.map Op.publish)).visible "made" =
        [[.object "a"], [.object "b"], [.any]] := by
  intro made ops es es' ws left right
  have positive : ∀ f ∈ es, f.negated = false := by decide
  have permuted : es.Perm es' := by decide
  have reversed : ws.Perm ws.reverse := ws.reverse_perm.symm
  have same := answers_of_permuted_phases ops positive permuted reversed [] "made"
  exact ⟨positive, permuted, reversed, same.1, by decide, by decide, by decide⟩

end Misuse.FactStore
