/-!
# Positions by name

The items of a list are found by the position that is entered for their names. Positions that are
exact stay so if a new item is entered at the end.
-/

namespace Misuse

/-- Of several positions for one name the first in the list counts. -/
abbrev Positions := List (String × Nat)

namespace Positions

def get? (p : Positions) (name : String) : Option Nat :=
  (p.find? fun e => e.1 == name).map Prod.snd

def enter (p : Positions) (name : String) (position : Nat) : Positions := (name, position) :: p

theorem get?_enter (p : Positions) (name : String) (n : Nat) (x : String) :
    (p.enter name n).get? x = if name = x then some n else p.get? x := by
  unfold get? enter
  by_cases h : name = x <;> simp [h]

/-- Every name is entered with its place in the list, and no other name is entered. -/
def Exact (p : Positions) (names : List String) : Prop :=
  ∀ name i, p.get? name = some i ↔ names[i]? = some name

theorem exact_nil : Exact [] [] := by
  intro name i
  simp [get?]

namespace Exact

variable {p : Positions} {names : List String} (h : p.Exact names)
include h

theorem get?_eq_none_iff (name : String) : p.get? name = none ↔ name ∉ names := by
  rw [List.mem_iff_getElem?, Option.eq_none_iff_forall_ne_some, not_exists]
  exact forall_congr' fun i => not_congr (h name i)

/-- A name that is new is entered with the place at the end. -/
theorem enter {name : String} (fresh : name ∉ names) :
    (p.enter name names.length).Exact (names ++ [name]) := by
  intro x i
  have before (place : names[i]? = some x) : i < names.length ∧ name ≠ x :=
    ⟨(List.getElem?_eq_some_iff.mp place).1,
      fun same => fresh (same ▸ List.mem_of_getElem? place)⟩
  rw [get?_enter, List.getElem?_append]
  by_cases same : name = x
  · grind
  · grind [h x i]

/-- No name has two places. -/
theorem nodup : names.Nodup := by
  refine List.pairwise_iff_getElem.mpr fun i j hi hj before same => ?_
  have first : p.get? names[i] = some i := (h _ i).mpr (List.getElem?_eq_getElem hi)
  have second : p.get? names[j] = some j := (h _ j).mpr (List.getElem?_eq_getElem hj)
  rw [← same, first] at second
  exact Nat.ne_of_lt before (Option.some.inj second)

end Exact

end Positions

end Misuse
