import Mathlib.Data.List.Basic
import Mathlib.Logic.Function.Iterate
import Mathlib.Logic.Relation
import Misuse.Hierarchy

/-!
# What a walk visits

A walk takes one turn after another (`walkTurn`). Every turn takes one node from the stack, and a
node puts its successors there once only, so the stack is empty after as many turns as it has
entries and the graph has edges that were not followed yet (`stack_iterate_eq_nil`). On the way, all
that was visited or lies on the stack can be reached, and the successors of what was visited were
visited or lie there (`Walked`). A walk with an empty stack has therefore visited exactly what can be
reached (`Walked.mem_iff`).
-/

namespace Misuse

variable {α : Type} [DecidableEq α] {next : α → List α}

/-! ## Turns -/

/-- One turn of a walk, from its stack and the visited nodes to the same after it. -/
def walkTurn (next : α → List α) : List α × List α → List α × List α
  | ([], seen) => ([], seen)
  | (a :: stack, seen) => if a ∈ seen then (stack, seen) else (next a ++ stack, a :: seen)

theorem iterate_walkTurn_nil (n : Nat) (seen : List α) :
    (walkTurn next)^[n] ([], seen) = ([], seen) := Function.iterate_fixed rfl n

/-- A walk visits what it has visited after so many turns. -/
theorem walkFrom_eq_iterate (fuel : Nat) (stack seen : List α) :
    walkFrom next fuel stack seen = ((walkTurn next)^[fuel] (stack, seen)).2 := by
  induction fuel generalizing stack seen with
  | zero => rfl
  | succ fuel ih =>
    rw [Function.iterate_succ_apply]
    cases stack with
    | nil => rw [walkTurn, iterate_walkTurn_nil, walkFrom]
    | cons a stack =>
      rw [walkFrom, walkTurn]
      split <;> exact ih _ _

/-- A walk that is over does not go on. -/
theorem iterate_eq_of_over {w : List α × List α} {n k : Nat} (h : ((walkTurn next)^[n] w).1 = [])
    (le : n ≤ k) : (walkTurn next)^[k] w = (walkTurn next)^[n] w := by
  obtain ⟨d, rfl⟩ := Nat.exists_eq_add_of_le le
  have finished : (walkTurn next)^[n] w = ([], ((walkTurn next)^[n] w).2) := Prod.ext h rfl
  rw [Nat.add_comm, Function.iterate_add_apply, finished, iterate_walkTurn_nil]

/-- What was visited stays visited, in the same order. -/
theorem suffix_walkTurn (w : List α × List α) : w.2 <:+ (walkTurn next w).2 := by
  obtain ⟨stack, seen⟩ := w
  cases stack with
  | nil => exact List.suffix_refl seen
  | cons a stack =>
    rw [walkTurn]
    split
    · exact List.suffix_refl seen
    · exact List.suffix_cons a seen

theorem suffix_iterate (w : List α × List α) (n : Nat) : w.2 <:+ ((walkTurn next)^[n] w).2 := by
  induction n generalizing w with
  | zero => exact List.suffix_refl w.2
  | succ n ih => exact (suffix_walkTurn w).trans (ih _)

/-! ## The end of a walk -/

/-- The edges that start at nodes not visited yet. -/
def unfollowed (edges : List (α × α)) (seen : List α) : List (α × α) :=
  edges.filter fun e => decide (e.1 ∉ seen)

/-- A visit follows the edges of its node. -/
theorem length_unfollowed_cons (edges : List (α × α)) {seen : List α} {a : α} (new : a ∉ seen) :
    (unfollowed edges (a :: seen)).length + (edges.filter fun e => decide (e.1 = a)).length =
      (unfollowed edges seen).length := by
  have left : unfollowed edges (a :: seen) =
      (unfollowed edges seen).filter fun e => !decide (e.1 = a) := by
    simp [unfollowed, List.filter_filter]
  have followed : (edges.filter fun e => decide (e.1 = a)) =
      (unfollowed edges seen).filter fun e => decide (e.1 = a) := by
    rw [unfollowed, List.filter_filter]
    refine List.filter_congr fun e _ => ?_
    by_cases source : e.1 = a <;> simp [source, new]
  rw [left, followed, Nat.add_comm]
  exact (List.length_eq_length_filter_add _).symm

/-- Nodes on the stack, and edges to follow. -/
def turnsLeft (edges : List (α × α)) (w : List α × List α) : Nat :=
  w.1.length + (unfollowed edges w.2).length

variable {edges : List (α × α)}
  (bounded : ∀ a, (next a).length ≤ (edges.filter fun e => decide (e.1 = a)).length)
include bounded

/-- A turn takes one node from the stack, and what it puts there it takes from the edges to follow. -/
theorem turnsLeft_walkTurn_lt {w : List α × List α} (more : w.1 ≠ []) :
    turnsLeft edges (walkTurn next w) < turnsLeft edges w := by
  obtain ⟨stack, seen⟩ := w
  cases stack with
  | nil => exact absurd rfl more
  | cons a stack =>
    by_cases old : a ∈ seen
    · simp [turnsLeft, walkTurn, old]
    · have expanded := bounded a
      have followed := length_unfollowed_cons edges old
      simp only [turnsLeft, walkTurn, old, ↓reduceIte, List.length_append, List.length_cons]
      omega

/-- **A walk is over after as many turns as there are nodes on its stack and edges to follow.** -/
theorem stack_iterate_eq_nil {w : List α × List α} {n : Nat} (enough : turnsLeft edges w ≤ n) :
    ((walkTurn next)^[n] w).1 = [] := by
  induction n generalizing w with
  | zero =>
    have none : w.1.length = 0 := Nat.le_zero.mp (Nat.le_trans (Nat.le_add_right ..) enough)
    exact List.eq_nil_of_length_eq_zero none
  | succ n ih =>
    rw [Function.iterate_succ_apply]
    by_cases finished : w.1 = []
    · have ended : walkTurn next w = w := by
        rw [show w = ([], w.2) from Prod.ext finished rfl]
        rfl
      rw [ended, iterate_eq_of_over (n := 0) finished (Nat.zero_le n)]
      exact finished
    · exact ih (Nat.le_of_lt_succ (Nat.lt_of_lt_of_le (turnsLeft_walkTurn_lt bounded finished) enough))

omit bounded

/-! ## The nodes it visits -/

/-- How far a walk from some roots has come. -/
structure Walked (next : α → List α) (roots : List α) (w : List α × List α) : Prop where
  nodup : w.2.Nodup
  reached : ∀ b, b ∈ w.1 ∨ b ∈ w.2 →
    ∃ a ∈ roots, Relation.ReflTransGen (fun a b => b ∈ next a) a b
  started : ∀ a ∈ roots, a ∈ w.1 ∨ a ∈ w.2
  followed : ∀ a ∈ w.2, ∀ b ∈ next a, b ∈ w.1 ∨ b ∈ w.2

namespace Walked

variable {roots : List α} {w : List α × List α}

omit [DecidableEq α] in
theorem start (next : α → List α) (roots : List α) : Walked next roots (roots, []) where
  nodup := List.nodup_nil
  reached b hb := ⟨b, by simpa using hb, .refl⟩
  started a ha := .inl ha
  followed a ha := absurd ha List.not_mem_nil

/-- A turn loses no node: what it takes from the stack was visited, or is from now on. -/
theorem mem_walkTurn (next : α → List α) {b : α} (h : b ∈ w.1 ∨ b ∈ w.2) :
    b ∈ (walkTurn next w).1 ∨ b ∈ (walkTurn next w).2 := by
  obtain ⟨stack, seen⟩ := w
  cases stack with
  | nil => exact h
  | cons a stack =>
    rw [walkTurn]
    split
    next old =>
      rcases h with hb | hb
      · rcases List.mem_cons.mp hb with rfl | hb
        · exact .inr old
        · exact .inl hb
      · exact .inr hb
    next =>
      rcases h with hb | hb
      · rcases List.mem_cons.mp hb with rfl | hb
        · exact .inr (List.mem_cons_self ..)
        · exact .inl (List.mem_append_right _ hb)
      · exact .inr (List.mem_cons_of_mem _ hb)

theorem turn (h : Walked next roots w) : Walked next roots (walkTurn next w) := by
  have started := fun a ha => mem_walkTurn next (h.started a ha)
  have followed := fun a ha b hb => mem_walkTurn next (h.followed a ha b hb)
  obtain ⟨stack, seen⟩ := w
  cases stack with
  | nil => exact h
  | cons a stack =>
    have root := h.reached a (.inl (List.mem_cons_self ..))
    by_cases old : a ∈ seen
    · have skip : walkTurn next (a :: stack, seen) = (stack, seen) := by simp [walkTurn, old]
      rw [skip] at started followed ⊢
      exact ⟨h.nodup, fun b hb => h.reached b (hb.imp_left (List.mem_cons_of_mem a)), started,
        followed⟩
    · have visit : walkTurn next (a :: stack, seen) = (next a ++ stack, a :: seen) := by
        simp [walkTurn, old]
      rw [visit] at started followed ⊢
      refine ⟨List.nodup_cons.mpr ⟨old, h.nodup⟩, fun b hb => ?_, started, fun c hc b hb => ?_⟩
      · rcases hb with hb | hb
        · rcases List.mem_append.mp hb with hb | hb
          · obtain ⟨r, hr, path⟩ := root
            exact ⟨r, hr, path.tail hb⟩
          · exact h.reached b (.inl (List.mem_cons_of_mem a hb))
        · rcases List.mem_cons.mp hb with rfl | hb
          · exact root
          · exact h.reached b (.inr hb)
      · rcases List.mem_cons.mp hc with rfl | hc
        · exact .inl (List.mem_append_left _ hb)
        · exact followed c hc b hb

theorem iterate (h : Walked next roots w) (n : Nat) :
    Walked next roots ((walkTurn next)^[n] w) := by
  induction n generalizing w with
  | zero => exact h
  | succ n ih => exact ih h.turn

omit [DecidableEq α] in
/-- **A walk that is over has visited exactly what its roots lead to.** -/
theorem mem_iff {seen : List α} (h : Walked next roots ([], seen)) (b : α) :
    b ∈ seen ↔ ∃ a ∈ roots, Relation.ReflTransGen (fun a b => b ∈ next a) a b := by
  constructor
  · exact fun hb => h.reached b (.inr hb)
  · rintro ⟨a, ha, path⟩
    induction path with
    | refl => exact (h.started a ha).resolve_left List.not_mem_nil
    | tail _ step ih => exact (h.followed _ ih _ step).resolve_left List.not_mem_nil

end Walked

/-- **A walk with as many steps as its stack and the graph have entries visits exactly what its
roots lead to.** -/
theorem mem_walk_iff
    (bounded : ∀ a, (next a).length ≤ (edges.filter fun e => decide (e.1 = a)).length)
    (roots : List α) (b : α) :
    b ∈ walk next edges.length roots [] ↔
      ∃ a ∈ roots, Relation.ReflTransGen (fun a b => b ∈ next a) a b := by
  let w := (walkTurn next)^[roots.length + edges.length] (roots, [])
  have finished : w.1 = [] := stack_iterate_eq_nil bounded (by simp [turnsLeft, unfollowed])
  have walked : Walked next roots w := (Walked.start next roots).iterate _
  rw [show w = ([], w.2) from Prod.ext finished rfl] at walked
  rw [walk, walkFrom_eq_iterate, List.mem_reverse]
  exact walked.mem_iff b

end Misuse
