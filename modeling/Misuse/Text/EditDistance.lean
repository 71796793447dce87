/-!
# Edit distance

The least number of characters to insert, delete or replace that turns one text into
another. One row of distances is kept, from what is read of the first text to every prefix
of the second; each further character of the first text turns the row into the next one.
Every row has one entry more than the second text has characters (`row_length`).
-/

namespace Misuse.Text.EditDistance

/-- The entries of the next row after its first one. Of each entry of the old row, what
stands before it was the `diagonal`, and `left` is what stands there now. Equal characters
cost nothing. -/
def sweep (x : Char) : List Char → List Nat → Nat → Nat → List Nat
  | y :: ys, above :: row, diagonal, left =>
    let entry := if x = y then diagonal else 1 + min (min diagonal above) left
    entry :: sweep x ys row above entry
  | _, _, _, _ => []

/-- The row for one character more, which comes after `count` others. -/
def nextRow (ys : List Char) (row : List Nat) (x : Char) (count : Nat) : List Nat :=
  match row with
  | diagonal :: row => (count + 1) :: sweep x ys row diagonal (count + 1)
  | [] => []

/-- The row for a whole text. Before it is read, every prefix takes its length of edits. -/
def row (ys xs : List Char) : List Nat :=
  xs.zipIdx.foldl (fun row (x, count) => nextRow ys row x count) (List.range (ys.length + 1))

def distance (xs ys : List Char) : Nat := (row ys xs).getD ys.length 0

/-! ## Length -/

theorem sweep_length (x : Char) (ys : List Char) {r : List Nat} (h : r.length = ys.length)
    (diagonal left : Nat) : (sweep x ys r diagonal left).length = ys.length := by
  induction ys generalizing r diagonal left with
  | nil => simp [sweep]
  | cons y ys ih =>
    obtain ⟨above, r, rfl⟩ := List.exists_cons_of_length_eq_add_one h
    simpa [sweep] using ih (by simpa using h) above _

theorem nextRow_length (ys : List Char) {r : List Nat} (h : r.length = ys.length + 1) (x : Char)
    (count : Nat) : (nextRow ys r x count).length = ys.length + 1 := by
  obtain ⟨diagonal, r, rfl⟩ := List.exists_cons_of_length_eq_add_one h
  simpa [nextRow] using sweep_length x ys (by simpa using h) diagonal (count + 1)

theorem row_length (ys xs : List Char) : (row ys xs).length = ys.length + 1 :=
  List.foldlRecOn (motive := fun r : List Nat => r.length = ys.length + 1) _ _ List.length_range
    fun _ h step _ => nextRow_length ys h step.1 step.2

end Misuse.Text.EditDistance
