import Mathlib.Data.List.Forall2
import Mathlib.Order.Bounds.Defs
import Misuse.Text.EditDistance

/-!
# Edits

An edit inserts, deletes or replaces one character at any place (`Edit`), and edits follow one
another (`Edits`). They can be put in the order of their places, from the front to the back
(`Aligned`, `Edits.aligned`), since two alignments with a text between them are one
(`Aligned.trans`). The cheapest alignment has the `cost` that the first characters decide
(`cost_le`). Equal characters may as well be kept: whatever else is done with one of them can be
made up for by one edit.

A row of distances holds the costs to the prefixes of the second text, both texts read backwards
(`row_eq_backwardRow`). So the last entry of the last row is the least number of edits
(`distance_isLeast`).
-/

namespace Misuse.Text

/-! ## Edits -/

/-- One character is inserted, deleted or replaced. -/
inductive Edit : List Char → List Char → Prop
  | insert (before after : List Char) (c : Char) : Edit (before ++ after) (before ++ c :: after)
  | delete (before after : List Char) (c : Char) : Edit (before ++ c :: after) (before ++ after)
  | replace (before after : List Char) (c d : Char) :
    Edit (before ++ c :: after) (before ++ d :: after)

/-- So many edits, one after another. -/
inductive Edits : Nat → List Char → List Char → Prop
  | none (s : List Char) : Edits 0 s s
  | next {n : Nat} {s t u : List Char} : Edits n s t → Edit t u → Edits (n + 1) s u

namespace Edit

variable {s t : List Char}

theorem symm (h : Edit s t) : Edit t s := by
  cases h with
  | insert before after c => exact .delete before after c
  | delete before after c => exact .insert before after c
  | replace before after c d => exact .replace before after d c

theorem cons (c : Char) (h : Edit s t) : Edit (c :: s) (c :: t) := by
  cases h with
  | insert before after d => exact .insert (c :: before) after d
  | delete before after d => exact .delete (c :: before) after d
  | replace before after d e => exact .replace (c :: before) after d e

theorem reverse (h : Edit s t) : Edit s.reverse t.reverse := by
  cases h with
  | insert before after c => simpa using Edit.insert after.reverse before.reverse c
  | delete before after c => simpa using Edit.delete after.reverse before.reverse c
  | replace before after c d => simpa using Edit.replace after.reverse before.reverse c d

end Edit

namespace Edits

variable {m n : Nat} {s t u : List Char}

theorem zero_iff : Edits 0 s t ↔ s = t := by
  constructor
  · rintro ⟨⟩
    rfl
  · rintro rfl
    exact .none s

theorem trans (h : Edits m s t) (h' : Edits n t u) : Edits (m + n) s u := by
  induction h' with
  | none => exact h
  | next _ edit ih => exact .next (ih h) edit

theorem symm (h : Edits n s t) : Edits n t s := by
  induction h with
  | none => exact .none _
  | @next n s t u _ edit ih =>
    have first : Edits 1 u t := .next (.none u) edit.symm
    exact Nat.add_comm 1 n ▸ first.trans ih

theorem map {f : List Char → List Char} (hf : ∀ {s t}, Edit s t → Edit (f s) (f t))
    (h : Edits n s t) : Edits n (f s) (f t) := by
  induction h with
  | none => exact .none _
  | next _ edit ih => exact .next ih (hf edit)

theorem reverse_iff : Edits n s.reverse t.reverse ↔ Edits n s t :=
  ⟨fun h => by simpa using h.map .reverse, map .reverse⟩

end Edits

/-! ## Alignments -/

/-- From the front to the back, each character is kept, replaced or deleted, or one is inserted.
What is not kept is `n` characters at most. -/
inductive Aligned : Nat → List Char → List Char → Prop
  | nil (n : Nat) : Aligned n [] []
  | keep {n : Nat} {s t : List Char} (c : Char) : Aligned n s t → Aligned n (c :: s) (c :: t)
  | replace {n : Nat} {s t : List Char} (c d : Char) :
    Aligned n s t → Aligned (n + 1) (c :: s) (d :: t)
  | delete {n : Nat} {s t : List Char} (c : Char) : Aligned n s t → Aligned (n + 1) (c :: s) t
  | insert {n : Nat} {s t : List Char} (d : Char) : Aligned n s t → Aligned (n + 1) s (d :: t)

namespace Aligned

variable {m n : Nat} {s t u : List Char}

theorem mono (h : Aligned m s t) (hmn : m ≤ n) : Aligned n s t := by
  induction h generalizing n with
  | nil => exact .nil n
  | keep c _ ih => exact (ih hmn).keep c
  | replace c d _ ih =>
    obtain ⟨n, rfl⟩ := Nat.exists_eq_add_one.mpr (Nat.zero_lt_of_lt hmn)
    exact (ih (Nat.le_of_succ_le_succ hmn)).replace c d
  | delete c _ ih =>
    obtain ⟨n, rfl⟩ := Nat.exists_eq_add_one.mpr (Nat.zero_lt_of_lt hmn)
    exact (ih (Nat.le_of_succ_le_succ hmn)).delete c
  | insert d _ ih =>
    obtain ⟨n, rfl⟩ := Nat.exists_eq_add_one.mpr (Nat.zero_lt_of_lt hmn)
    exact (ih (Nat.le_of_succ_le_succ hmn)).insert d

theorem refl (n : Nat) (s : List Char) : Aligned n s s := by
  induction s with
  | nil => exact .nil n
  | cons c s ih => exact ih.keep c

theorem append (before : List Char) (h : Aligned n s t) :
    Aligned n (before ++ s) (before ++ t) := by
  induction before with
  | nil => exact h
  | cons c before ih => exact ih.keep c

theorem of_edit (h : Edit s t) : Aligned 1 s t := by
  cases h with
  | insert before after c => exact ((refl 0 after).insert c).append before
  | delete before after c => exact ((refl 0 after).delete c).append before
  | replace before after c d => exact ((refl 0 after).replace c d).append before

theorem length_le (h : Aligned n s t) : s.length ≤ t.length + n ∧ t.length ≤ s.length + n := by
  induction h with
  | nil n => exact ⟨Nat.zero_le _, Nat.zero_le _⟩
  | _ => simp only [List.length_cons]; omega

/-- To lead on from a text it is enough to lead on from what its first character came from. -/
theorem of_cons {c : Char} (h : Aligned m s (c :: t))
    (keep : ∀ {m s}, Aligned m s t → Aligned (m + n) (c :: s) u)
    (replace : ∀ {m s} b, Aligned m s t → Aligned (m + 1 + n) (b :: s) u)
    (insert : ∀ {m s}, Aligned m s t → Aligned (m + 1 + n) s u) : Aligned (m + n) s u := by
  generalize whole : c :: t = ct at h
  induction h with
  | nil => cases whole
  | keep _ h _ =>
    cases whole
    exact keep h
  | replace b _ h _ =>
    cases whole
    exact replace b h
  | insert _ h _ =>
    cases whole
    exact insert h
  | delete b _ ih => exact ((ih whole).delete b).mono (by omega)

/-- Two alignments with a text between them are one. -/
theorem trans (h : Aligned m s t) (h' : Aligned n t u) : Aligned (m + n) s u := by
  induction h' generalizing m s with
  | nil n => exact h.mono (Nat.le_add_right m n)
  | insert d _ ih => exact (ih h).insert d
  | keep c _ ih =>
    refine h.of_cons (fun h => (ih h).keep c) (fun b h => ?_) (fun h => ?_)
    · exact ((ih h).replace b c).mono (by omega)
    · exact ((ih h).insert c).mono (by omega)
  | replace c d _ ih =>
    refine h.of_cons (fun h => (ih h).replace c d) (fun b h => ?_) (fun h => ?_)
    · exact ((ih h).replace b d).mono (by omega)
    · exact ((ih h).insert d).mono (by omega)
  | delete c _ ih =>
    refine h.of_cons (fun h => (ih h).delete c) (fun b h => ?_) (fun h => ?_)
    · exact ((ih h).delete b).mono (by omega)
    · exact (ih h).mono (by omega)

theorem exists_edits (h : Aligned n s t) : ∃ k ≤ n, Edits k s t := by
  induction h with
  | nil n => exact ⟨0, Nat.zero_le n, .none []⟩
  | keep c _ ih =>
    obtain ⟨k, hk, edits⟩ := ih
    exact ⟨k, hk, edits.map (.cons c)⟩
  | @replace n s t c d _ ih =>
    obtain ⟨k, hk, edits⟩ := ih
    exact ⟨k + 1, Nat.succ_le_succ hk, (edits.map (.cons c)).next (.replace [] t c d)⟩
  | @delete n s t c _ ih =>
    obtain ⟨k, hk, edits⟩ := ih
    exact ⟨k + 1, Nat.succ_le_succ hk, (edits.map (.cons c)).next (.delete [] t c)⟩
  | @insert n s t d _ ih =>
    obtain ⟨k, hk, edits⟩ := ih
    exact ⟨k + 1, Nat.succ_le_succ hk, edits.next (.insert [] t d)⟩

end Aligned

theorem Edits.aligned {n : Nat} {s t : List Char} (h : Edits n s t) : Aligned n s t := by
  induction h with
  | none s => exact .refl 0 s
  | next _ edit ih => exact ih.trans (.of_edit edit)

namespace EditDistance

/-! ## Cost -/

/-- What the first characters decide. Equal ones are kept, and no other way is looked at. -/
def cost : List Char → List Char → Nat
  | [], t => t.length
  | _ :: s, [] => s.length + 1
  | c :: s, d :: t =>
    if c = d then cost s t
    else 1 + min (min (cost s t) (cost s (d :: t))) (cost (c :: s) t)

theorem cost_nil_right (s : List Char) : cost s [] = s.length := by
  cases s <;> simp [cost]

theorem aligned_cost (s t : List Char) : Aligned (cost s t) s t := by
  fun_induction cost s t with
  | case1 t =>
    induction t with
    | nil => exact .nil 0
    | cons d t ih => exact ih.insert d
  | case2 c s =>
    induction s generalizing c with
    | nil => exact .delete c (.nil 0)
    | cons b s ih => exact (ih b).delete c
  | case3 s c t ih => exact ih.keep c
  | case4 c s d t _ replaced deleted inserted =>
    rcases Nat.le_total (min (cost s t) (cost s (d :: t))) (cost (c :: s) t) with left | left
    · rw [Nat.min_eq_left left]
      rcases Nat.le_total (cost s t) (cost s (d :: t)) with above | above
      · rw [Nat.min_eq_left above, Nat.add_comm]
        exact replaced.replace c d
      · rw [Nat.min_eq_right above, Nat.add_comm]
        exact deleted.delete c
    · rw [Nat.min_eq_right left, Nat.add_comm]
      exact inserted.insert d

/-- No alignment is cheaper. -/
theorem cost_le {n : Nat} {s t : List Char} (h : Aligned n s t) : cost s t ≤ n := by
  fun_induction cost s t generalizing n with
  | case1 t => simpa using h.length_le.2
  | case2 c s => simpa using h.length_le.1
  | case3 s c t ih =>
    -- if one of the two is not kept, it is put back or taken away at the cost of its own edit
    have back : Aligned 1 s (c :: s) := (Aligned.refl 0 s).insert c
    have away : Aligned 1 (c :: t) t := (Aligned.refl 0 t).delete c
    cases h with
    | keep _ h => exact ih h
    | replace _ _ h => exact Nat.le_succ_of_le (ih h)
    | delete _ h => exact ih (h.trans away)
    | insert _ h =>
      have := ih (back.trans h)
      omega
  | case4 c s d t differ replaced deleted inserted =>
    cases h with
    | keep _ h => exact absurd rfl differ
    | replace _ _ h =>
      have := replaced h
      omega
    | delete _ h =>
      have := deleted h
      omega
    | insert _ h =>
      have := inserted h
      omega

/-- The cost is the least number of edits. -/
theorem cost_isLeast (s t : List Char) : IsLeast {n | Edits n s t} (cost s t) := by
  obtain ⟨k, hk, edits⟩ := (aligned_cost s t).exists_edits
  have least {n : Nat} (h : Edits n s t) : cost s t ≤ n := cost_le h.aligned
  obtain rfl : k = cost s t := Nat.le_antisymm hk (least edits)
  exact ⟨edits, fun _ => least⟩

/-! ## Rows -/

/-- The costs to `q` with one, two and more of the further characters in front. -/
def costs (p : List Char) : List Char → List Char → List Nat
  | _, [] => []
  | q, y :: ys => cost p (y :: q) :: costs p (y :: q) ys

/-- The row of costs from a text that is read backwards. -/
def backwardRow (ys p : List Char) : List Nat := cost p [] :: costs p [] ys

/-- A sweep that has read `q` knows the costs to it in the old row and in the new one. It goes on
to give the costs to all that is longer. -/
theorem sweep_costs (x : Char) (p q ys : List Char) :
    sweep x ys (costs p q ys) (cost p q) (cost (x :: p) q) = costs (x :: p) q ys := by
  induction ys generalizing q with
  | nil => rfl
  | cons y ys ih =>
    have entry : cost (x :: p) (y :: q) =
        if x = y then cost p q
        else 1 + min (min (cost p q) (cost p (y :: q))) (cost (x :: p) q) := by
      rw [cost]
    rw [costs, costs, sweep, ← entry, ih]

theorem nextRow_backwardRow (ys p : List Char) (x : Char) :
    nextRow ys (backwardRow ys p) x p.length = backwardRow ys (x :: p) := by
  have first : cost (x :: p) [] = p.length + 1 := cost_nil_right (x :: p)
  rw [backwardRow, backwardRow, nextRow, ← first, sweep_costs]

theorem costs_nil (q ys : List Char) : costs [] q ys = List.range' (q.length + 1) ys.length := by
  induction ys generalizing q with
  | nil => rfl
  | cons y ys ih =>
    rw [costs, ih, cost]
    rfl

/-- Every row holds the costs of the prefixes, read backwards. -/
theorem row_eq_backwardRow (ys xs : List Char) : row ys xs = backwardRow ys xs.reverse := by
  have start : List.range (ys.length + 1) = backwardRow ys [] := by
    rw [backwardRow, costs_nil, cost, List.range_eq_range']
    rfl
  have rest (p : List Char) :
      (xs.zipIdx p.length).foldl (fun row step => nextRow ys row step.1 step.2)
        (backwardRow ys p) = backwardRow ys (xs.reverse ++ p) := by
    induction xs generalizing p with
    | nil => rfl
    | cons x xs ih =>
      rw [List.zipIdx_cons, List.foldl_cons]
      simp only [nextRow_backwardRow, List.reverse_cons, List.append_assoc]
      exact ih (x :: p)
  rw [row, start, ← List.append_nil xs.reverse]
  exact rest []

theorem getD_costs (p q ys : List Char) :
    (cost p q :: costs p q ys).getD ys.length 0 = cost p (ys.reverse ++ q) := by
  induction ys generalizing q with
  | nil => rfl
  | cons y ys ih =>
    rw [List.length_cons, List.getD_cons_succ, costs, ih, List.reverse_cons, List.append_assoc]
    rfl

theorem distance_eq_cost (xs ys : List Char) :
    distance xs ys = cost xs.reverse ys.reverse := by
  rw [distance, row_eq_backwardRow, backwardRow, getD_costs, List.append_nil]

/-- **The last entry of the last row is the least number of edits.** -/
theorem distance_isLeast (xs ys : List Char) : IsLeast {n | Edits n xs ys} (distance xs ys) := by
  have backwards := cost_isLeast xs.reverse ys.reverse
  simpa only [distance_eq_cost, Edits.reverse_iff] using backwards

/-! ## Other characters -/

theorem cost_congr {s s' t : List Char}
    (h : List.Forall₂ (fun c c' => ∀ d ∈ t, c = d ↔ c' = d) s s') : cost s t = cost s' t := by
  fun_induction cost s t generalizing s' with
  | case1 t =>
    cases h
    rw [cost]
  | case2 c s =>
    rw [cost_nil_right, ← h.length_eq, List.length_cons]
  | case3 s c t ih =>
    cases h with
    | cons first h =>
      have same := (first c List.mem_cons_self).mp rfl
      rw [cost, if_pos same]
      exact ih (h.imp fun _ _ hc d hd => hc d (List.mem_cons_of_mem _ hd))
  | case4 c s d t differ replaced deleted inserted =>
    have tail {r r' : List Char}
        (h : List.Forall₂ (fun c c' => ∀ e ∈ d :: t, c = e ↔ c' = e) r r') :
        List.Forall₂ (fun c c' => ∀ e ∈ t, c = e ↔ c' = e) r r' :=
      h.imp fun _ _ hc e he => hc e (List.mem_cons_of_mem _ he)
    have whole := h
    cases h with
    | cons first h =>
      have differ' := mt (first d List.mem_cons_self).mpr differ
      rw [cost, if_neg differ', replaced (tail h), deleted h, inserted (tail whole)]

/-- What the characters are that do not occur in the second text makes no difference. -/
theorem distance_congr {xs xs' ys : List Char}
    (h : List.Forall₂ (fun x x' => ∀ y ∈ ys, x = y ↔ x' = y) xs xs') :
    distance xs ys = distance xs' ys := by
  rw [distance_eq_cost, distance_eq_cost]
  refine cost_congr (List.forall₂_reverse_iff.mpr (h.imp fun _ _ hx y hy => ?_))
  exact hx y (List.mem_reverse.mp hy)

end EditDistance

end Misuse.Text
