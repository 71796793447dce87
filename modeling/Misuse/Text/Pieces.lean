import Misuse.Text.Basic

/-!
# Pieces of a delimited text

A text is cut wherever its delimiter occurs, from left to right and without overlap.
An empty delimiter cuts before, between and after all characters.
Joining the pieces with the delimiter gives the text back (`join_pieces`).
-/

namespace Misuse.Text

/-- Put a character in front of the first piece. -/
def extendFirst (c : Char) : List (List Char) → List (List Char)
  | [] => [[c]]
  | p :: ps => (c :: p) :: ps

/-- Cut at a delimiter that is not empty; `skip` characters of one already found remain. -/
def piecesFrom (delimiter : List Char) : Nat → List Char → List (List Char)
  | _, [] => [[]]
  | skip + 1, _ :: r => piecesFrom delimiter skip r
  | 0, c :: r =>
    if delimiter.isPrefixOf (c :: r) then
      [] :: piecesFrom delimiter (delimiter.length - 1) r
    else extendFirst c (piecesFrom delimiter 0 r)

def pieces (delimiter text : List Char) : List (List Char) :=
  if delimiter.isEmpty then [] :: (text.map fun c => [c]) ++ [[]]
  else piecesFrom delimiter 0 text

/-- Pieces with the delimiter between neighbours. -/
def join (delimiter : List Char) : List (List Char) → List Char
  | [] => []
  | [p] => p
  | p :: q :: ps => p ++ delimiter ++ join delimiter (q :: ps)

/-! ## Laws -/

theorem piecesFrom_ne_nil (d : List Char) (skip : Nat) (s : List Char) :
    piecesFrom d skip s ≠ [] := by
  induction s generalizing skip with
  | nil => simp [piecesFrom]
  | cons c r ih =>
    cases skip with
    | succ k => simpa [piecesFrom] using ih k
    | zero =>
      unfold piecesFrom
      split
      · simp
      · cases h : piecesFrom d 0 r with
        | nil => exact absurd h (ih 0)
        | cons p ps => simp [extendFirst]

theorem join_extendFirst (d : List Char) (c : Char) (ps : List (List Char)) (h : ps ≠ []) :
    join d (extendFirst c ps) = c :: join d ps := by
  match ps with
  | [] => exact absurd rfl h
  | [p] => rfl
  | p :: q :: qs => rfl

theorem join_cons (d p : List Char) (ps : List (List Char)) (h : ps ≠ []) :
    join d (p :: ps) = p ++ d ++ join d ps := by
  match ps with
  | [] => exact absurd rfl h
  | q :: qs => rfl

theorem join_piecesFrom (d : List Char) (hd : d ≠ []) (skip : Nat) (s : List Char) :
    join d (piecesFrom d skip s) = s.drop skip := by
  induction s generalizing skip with
  | nil => simp [piecesFrom, join]
  | cons c r ih =>
    cases skip with
    | succ k => simpa [piecesFrom] using ih k
    | zero =>
      unfold piecesFrom
      split
      next hp =>
        rw [join_cons _ _ _ (piecesFrom_ne_nil _ _ _), ih]
        obtain ⟨t, ht⟩ := List.isPrefixOf_iff_prefix.mp hp
        cases d with
        | nil => exact absurd rfl hd
        | cons e es =>
          simp only [List.cons_append, List.cons.injEq] at ht
          obtain ⟨rfl, rfl⟩ := ht
          simp
      next =>
        rw [join_extendFirst _ _ _ (piecesFrom_ne_nil _ _ _), ih]
        simp

/-- No character of the text is lost between its pieces. -/
theorem join_pieces (d s : List Char) (hd : d ≠ []) : join d (pieces d s) = s := by
  have h : d.isEmpty = false := by simp [hd]
  simp [pieces, h, join_piecesFrom d hd]

end Misuse.Text
