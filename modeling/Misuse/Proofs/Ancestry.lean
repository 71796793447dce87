import Mathlib.Data.List.Nodup
import Misuse.Hierarchy
import Misuse.Proofs.Walks

/-!
# Supertypes

Types may be declared below each other in circles. The walk up from a type ends all the same, as it
follows each declaration once (`climb_over`), and visits what chains of declarations lead to
(`mem_climb_iff`). So the supertypes of a type are all that are above it but itself, and one type is
a subtype of another if it is the other or below it (`supertypes_of_declared`).
-/

namespace Misuse

namespace Hierarchy

/-! ## Declarations -/

theorem mem_declare_iff (h : Hierarchy) (child parent : String) (e : String × String) :
    e ∈ (h.declare child parent).edges ↔ e ∈ h.edges ∨ e = (child, parent) := by
  unfold declare
  by_cases known : (child, parent) ∈ h.edges
  · rw [if_pos (List.contains_iff_mem.mpr known)]
    exact (or_iff_left_of_imp fun eq => eq ▸ known).symm
  · rw [if_neg (mt List.contains_iff_mem.mp known), List.mem_append, List.mem_singleton]

theorem length_declare_le (h : Hierarchy) (child parent : String) :
    (h.declare child parent).edges.length ≤ h.edges.length + 1 := by
  unfold declare
  split
  · exact Nat.le_succ _
  · exact Nat.le_of_eq (List.length_append ..)

/-- Declaring pairs one by one adds them, some of them once only. -/
theorem mem_foldl_declare_iff (pairs : List (String × String)) (h : Hierarchy)
    (e : String × String) :
    e ∈ (pairs.foldl (fun h (child, parent) => h.declare child parent) h).edges ↔
      e ∈ h.edges ∨ e ∈ pairs := by
  induction pairs generalizing h with
  | nil => simp
  | cons pair pairs ih => rw [List.foldl_cons, ih, mem_declare_iff, List.mem_cons, or_assoc]

theorem length_foldl_declare_le (pairs : List (String × String)) (h : Hierarchy) :
    (pairs.foldl (fun h (child, parent) => h.declare child parent) h).edges.length ≤
      h.edges.length + pairs.length := by
  induction pairs generalizing h with
  | nil => exact Nat.le_refl _
  | cons pair pairs ih =>
    obtain ⟨child, parent⟩ := pair
    have first := h.length_declare_le child parent
    have rest := ih (h.declare child parent)
    rw [List.foldl_cons, List.length_cons]
    exact Nat.le_trans rest (by omega)

theorem mem_edges_ofList_iff (pairs : List (String × String)) (e : String × String) :
    e ∈ (ofList pairs).edges ↔ e ∈ pairs := by
  rw [ofList, mem_foldl_declare_iff]
  exact or_iff_right List.not_mem_nil

theorem length_edges_ofList_le (pairs : List (String × String)) :
    (ofList pairs).edges.length ≤ pairs.length := by
  simpa [ofList, empty] using length_foldl_declare_le pairs empty

/-! ## Climbing -/

variable (h : Hierarchy) (type : String)

/-- What the walk puts on its stack for a type: the direct supertypes, the one declared last on
top. -/
def above : List String := (h.direct type).reverse

/-- The walk up from a type, which counts as visited, after some turns. -/
def climb (n : Nat) : List String × List String := (walkTurn h.above)^[n] (h.above type, [type])

variable {h type}

theorem mem_above_iff {parent : String} : parent ∈ h.above type ↔ (type, parent) ∈ h.edges := by
  simp [above, direct]

theorem length_above : (h.above type).length =
    (h.edges.filter fun e => decide (e.1 = type)).length := by
  rw [above, List.length_reverse, direct, List.length_map]
  rfl

/-- The walk is over after as many turns as there are declarations. -/
theorem climb_over {n : Nat} (enough : h.edges.length ≤ n) : (h.climb type n).1 = [] := by
  have bounded (a : String) : (h.above a).length ≤ (h.edges.filter fun e => decide (e.1 = a)).length :=
    Nat.le_of_eq length_above
  refine stack_iterate_eq_nil bounded ?_
  have followed := length_unfollowed_cons h.edges (List.not_mem_nil (a := type))
  have all : (unfollowed h.edges []).length = h.edges.length := by simp [unfollowed]
  rw [turnsLeft, length_above, Nat.add_comm, followed, all]
  exact enough

theorem climb_eq {n : Nat} (enough : h.edges.length ≤ n) :
    h.climb type n = h.climb type h.edges.length :=
  iterate_eq_of_over (climb_over (Nat.le_refl _)) enough

/-- The supertypes are what is visited after the type itself. -/
theorem cons_supertypes : type :: h.supertypes type = (h.climb type h.edges.length).2.reverse := by
  have visited : h.supertypes type = (h.climb type h.edges.length).2.reverse.tail := by
    rw [supertypes, walk, walkFrom_eq_iterate, ← climb_eq (Nat.le_add_left ..)]
    rfl
  have grown : [type] <:+ (h.climb type h.edges.length).2 :=
    suffix_iterate (h.above type, [type]) h.edges.length
  obtain ⟨later, hl⟩ := grown
  have started : (h.climb type h.edges.length).2.reverse = type :: later.reverse := by
    rw [← hl, List.reverse_append]
    rfl
  rw [visited, started, List.tail_cons]

theorem walked_climb (type : String) (n : Nat) : Walked h.above [type] (h.climb type n) := by
  have first := (Walked.start h.above [type]).turn
  have visit : walkTurn h.above ([type], []) = (h.above type, [type]) := by simp [walkTurn]
  rw [visit] at first
  exact first.iterate n

/-- **The walk visits exactly what chains of declarations lead to.** -/
theorem mem_climb_iff (s : String) :
    s ∈ (h.climb type h.edges.length).2 ↔
      Relation.ReflTransGen (fun child parent => (child, parent) ∈ h.edges) type s := by
  have walked := h.walked_climb type h.edges.length
  rw [show h.climb type h.edges.length = ([], _) from Prod.ext (climb_over (Nat.le_refl _)) rfl]
    at walked ⊢
  rw [walked.mem_iff]
  simp only [List.mem_singleton, exists_eq_left, mem_above_iff]

/-- No supertype is listed twice, and the type itself is not. -/
theorem nodup_supertypes : (type :: h.supertypes type).Nodup := by
  rw [cons_supertypes]
  exact List.nodup_reverse.mpr (walked_climb _ _).nodup

theorem mem_supertypes_iff (s : String) :
    s ∈ h.supertypes type ↔ s ≠ type ∧
      Relation.TransGen (fun child parent => (child, parent) ∈ h.edges) type s := by
  have visited : s ∈ type :: h.supertypes type ↔
      s = type ∨ Relation.TransGen (fun child parent => (child, parent) ∈ h.edges) type s := by
    rw [cons_supertypes, List.mem_reverse, mem_climb_iff, Relation.reflTransGen_iff_eq_or_transGen]
  rw [List.mem_cons] at visited
  by_cases same : s = type
  · subst same
    simp [(List.nodup_cons.mp nodup_supertypes).1]
  · simpa [same] using visited

theorem isSubtype_iff (child parent : String) :
    h.isSubtype child parent = true ↔
      Relation.ReflTransGen (fun child parent => (child, parent) ∈ h.edges) child parent := by
  rw [← mem_climb_iff, ← List.mem_reverse, ← cons_supertypes, List.mem_cons, isSubtype,
    Bool.or_eq_true, beq_iff_eq, List.contains_iff_mem, eq_comm]

/-- **Subtyping is reachability along the declared pairs**, whatever circles they form. The walk up
from a type is over after as many turns as there are pairs. It lists each type that a chain of pairs
leads to once, and leaves out the type itself. Subtyping is the reflexive and transitive closure of
the pairs. -/
theorem supertypes_of_declared (pairs : List (String × String)) :
    let h : Hierarchy := ofList pairs
    let declared := fun child parent => (child, parent) ∈ pairs
    (∀ type n, (h.climb type (pairs.length + n)).1 = [] ∧
      (h.climb type (pairs.length + n)).2.reverse = type :: h.supertypes type) ∧
    (∀ type, (h.supertypes type).Nodup ∧ type ∉ h.supertypes type ∧
      ∀ s, s ∈ h.supertypes type ↔ s ≠ type ∧ Relation.TransGen declared type s) ∧
    (∀ child parent, h.isSubtype child parent = true ↔
      Relation.ReflTransGen declared child parent) ∧
    (∀ a, h.isSubtype a a = true) ∧
    ∀ a b c, h.isSubtype a b = true → h.isSubtype b c = true → h.isSubtype a c = true := by
  intro h declared
  have edges : (fun child parent => (child, parent) ∈ h.edges) = declared := by
    funext child parent
    exact propext (mem_edges_ofList_iff pairs _)
  have closure (child parent : String) : h.isSubtype child parent = true ↔
      Relation.ReflTransGen declared child parent := edges ▸ isSubtype_iff child parent
  refine ⟨fun type n => ?_, fun type => ?_, closure, fun a => ?_, fun a b c hab hbc => ?_⟩
  · have enough : h.edges.length ≤ pairs.length + n :=
      Nat.le_trans (length_edges_ofList_le pairs) (Nat.le_add_right ..)
    exact ⟨climb_over enough, by rw [climb_eq enough, cons_supertypes]⟩
  · have once : (type :: h.supertypes type).Nodup := nodup_supertypes
    obtain ⟨self, nodup⟩ := List.nodup_cons.mp once
    exact ⟨nodup, self, fun s => edges ▸ mem_supertypes_iff s⟩
  · exact (closure a a).mpr .refl
  · exact (closure a c).mpr (((closure a b).mp hab).trans ((closure b c).mp hbc))

/-- Three types in a circle, one of them below itself too: the other two are above each. -/
theorem supertypes_of_declared_circle :
    let h := ofList [("SecretKey", "Key"), ("Key", "Spec"), ("Spec", "SecretKey"), ("Key", "Key")]
    h.supertypes "SecretKey" = ["Key", "Spec"] ∧ "SecretKey" ∉ h.supertypes "SecretKey" ∧
      h.isSubtype "Spec" "Spec" = true ∧ h.isSubtype "Spec" "Key" = true := by
  intro h
  obtain ⟨-, listed, -, itself, chain⟩ := supertypes_of_declared
    [("SecretKey", "Key"), ("Key", "Spec"), ("Spec", "SecretKey"), ("Key", "Key")]
  exact ⟨by decide +kernel, (listed "SecretKey").2.1, itself "Spec",
    chain "Spec" "SecretKey" "Key" (by decide +kernel) (by decide +kernel)⟩

end Hierarchy

end Misuse
