import Mathlib.Data.List.MinMax
import Mathlib.Data.Prod.Lex
import Mathlib.Data.String.Basic
import Misuse.Proofs.Edits
import Misuse.Settings.Fault
import Misuse.Settings.Preset

/-!
# Suggested names

The name that is suggested for an unknown one is the least of the known names in range by its
distance and then by itself (`SettingsFault.suggestion?_eq_argmin`). The unknown name is lowered
first. How letters beyond ASCII are lowered makes no difference as long as they stay there
(`Text.Lowered`) and no known name has one (`SettingsFault.distanceTo_eq`), as none of the presets
has (`Preset.ascii_of_mem_names`). The distance is the least number of edits, so the nearest known
name is suggested (`Preset.suggests_nearest`).
-/

namespace Misuse

open Text EditDistance

/-! ## Lower case -/

/-- A text and its lower case: a character that comes to the letters a to z does so, and one beyond
ASCII that does not becomes any character beyond ASCII. -/
inductive Text.Lowered : List Char → List Char → Prop
  | nil : Lowered [] []
  | letter {s t : List Char} (c : Char) : Lowered s t → Lowered (c :: s) (asciiLowered c ++ t)
  | foreign {s t : List Char} {c d : Char} (alone : asciiLowered c = [c]) (hc : 128 ≤ c.toNat)
    (hd : 128 ≤ d.toNat) : Lowered s t → Lowered (c :: s) (d :: t)

/-- Two ways to lower a text differ in characters beyond ASCII only. -/
theorem Text.Lowered.forall₂ {s t ys : List Char} (h : Lowered s t)
    (ascii : ∀ y ∈ ys, y.toNat < 128) :
    List.Forall₂ (fun x x' => ∀ y ∈ ys, x = y ↔ x' = y) (s.flatMap asciiLowered) t := by
  induction h with
  | nil => exact .nil
  | letter c _ ih =>
    rw [List.flatMap_cons]
    exact List.rel_append (List.forall₂_same.mpr fun _ _ _ _ => Iff.rfl) ih
  | @foreign s t c d alone hc hd _ ih =>
    have apart {x y : Char} (hx : 128 ≤ x.toNat) (hy : y ∈ ys) : x ≠ y := by
      rintro rfl
      exact Nat.not_lt.mpr hx (ascii x hy)
    rw [List.flatMap_cons, alone]
    exact .cons (fun y hy => iff_of_false (apart hc hy) (apart hd hy)) ih

/-- The names of the presets have no characters beyond ASCII. -/
theorem Preset.ascii_of_mem_names {k : String} (h : k ∈ names) : ∀ y ∈ k.toList, y.toNat < 128 := by
  obtain ⟨p, -, rfl⟩ := List.mem_map.mp h
  cases p <;> simp [name]

namespace SettingsFault

/-- The distance is the one from the name in lower case. -/
theorem distanceTo_eq {s k : String} {lowered : List Char} (h : Lowered s.toList lowered)
    (ascii : ∀ y ∈ k.toList, y.toNat < 128) : distanceTo s k = distance lowered k.toList :=
  distance_congr (h.forall₂ ascii)

/-! ## The nearest name -/

/-- Known names are ordered by distance, and alphabetically at the same distance. -/
def rank (s k : String) : ℕ ×ₗ String := toLex (distanceTo s k, k)

theorem isBetter_iff (s k l : String) : isBetter s k l = true ↔ rank s k < rank s l := by
  simp [isBetter, rank, Prod.Lex.toLex_lt_toLex]

theorem suggestion?_eq_argmin (known : List String) (s : String) :
    suggestion? known s =
      (known.filter fun k => decide (distanceTo s k ≤ suggestionRange)).argmin (rank s) := by
  have step : better s = List.argAux fun k l => rank s k < rank s l := by
    funext best k
    cases best with
    | none => rfl
    | some l =>
      by_cases h : isBetter s k l = true
      · simp [better, List.argAux, h, (isBetter_iff s k l).mp h]
      · simp [better, List.argAux, h, mt (isBetter_iff s k l).mpr h]
  rw [suggestion?, step, List.argmin]

theorem rank_lt_iff (s k l : String) :
    rank s k < rank s l ↔
      distanceTo s k < distanceTo s l ∨ distanceTo s k = distanceTo s l ∧ k < l :=
  Prod.Lex.toLex_lt_toLex

/-- No two names rank the same. -/
theorem rank_injective (s : String) {k l : String} (h : rank s k = rank s l) : k = l :=
  congrArg (fun r => (ofLex r).2) h

/-- The suggested name is in range and comes before all other known names. -/
theorem suggestion?_eq_some_iff (known : List String) (s name : String) :
    suggestion? known s = some name ↔
      name ∈ known ∧ distanceTo s name ≤ suggestionRange ∧
        ∀ k ∈ known, k ≠ name → rank s name < rank s k := by
  have inRange (k : String) :
      k ∈ known.filter (fun k => decide (distanceTo s k ≤ suggestionRange)) ↔
        k ∈ known ∧ distanceTo s k ≤ suggestionRange := by
    simp
  rw [suggestion?_eq_argmin, ← Option.mem_def, List.mem_argmin_iff]
  simp only [inRange]
  constructor
  · rintro ⟨⟨mem, near⟩, least, -⟩
    refine ⟨mem, near, fun k hk other => ?_⟩
    by_cases h : distanceTo s k ≤ suggestionRange
    · exact lt_of_le_of_ne (least k ⟨hk, h⟩) fun same => other (rank_injective s same).symm
    · exact (rank_lt_iff s name k).mpr (.inl (Nat.lt_of_le_of_lt near (Nat.lt_of_not_le h)))
  · rintro ⟨mem, near, first⟩
    have le (k : String) (hk : k ∈ known) : rank s name ≤ rank s k := by
      by_cases same : k = name
      · exact same ▸ le_refl _
      · exact (first k hk same).le
    refine ⟨⟨mem, near⟩, fun k hk => le k hk.1, fun k hk hle => ?_⟩
    rw [rank_injective s (le_antisymm hle (le k hk.1))]

theorem suggestion?_eq_none_iff (known : List String) (s : String) :
    suggestion? known s = none ↔ ∀ k ∈ known, suggestionRange < distanceTo s k := by
  rw [suggestion?_eq_argmin, List.argmin_eq_none, List.filter_eq_nil_iff]
  simp

end SettingsFault

namespace Preset

open SettingsFault

/-- **The nearest known name is suggested.** The distance of two texts is the least number of edits
that turn one into the other, so it is symmetric, zero exactly for equal texts, and satisfies the
triangle inequality. For an unknown name, a name is suggested exactly if a known one is at most 3
edits away from the name in lower case: the nearest one, and of several the first in the alphabet.
That holds whatever names are known; if they are within ASCII, as those of the presets are, also
however letters beyond it are lowered. -/
theorem suggests_nearest :
    (∀ xs ys, IsLeast {n | Edits n xs ys} (distance xs ys)) ∧
      (∀ xs ys, distance xs ys = distance ys xs) ∧
      (∀ xs ys, distance xs ys = 0 ↔ xs = ys) ∧
      (∀ xs ys zs, distance xs zs ≤ distance xs ys + distance ys zs) ∧
      (∀ k ∈ names, ∀ y ∈ k.toList, y.toNat < 128) ∧
      ∀ (known : List String) (s : String) (lowered : List Char),
        lowered = s.toList.flatMap asciiLowered ∨
            Lowered s.toList lowered ∧ (∀ k ∈ known, ∀ y ∈ k.toList, y.toNat < 128) →
          ∃ suggestion, unknown known s = .unknownPreset s suggestion ∧
            (suggestion.isSome ↔ ∃ k ∈ known, distance lowered k.toList ≤ 3) ∧
            ∀ name, suggestion = some name ↔
              name ∈ known ∧ distance lowered name.toList ≤ 3 ∧
                ∀ k ∈ known, k ≠ name →
                  distance lowered name.toList < distance lowered k.toList ∨
                    distance lowered name.toList = distance lowered k.toList ∧ name < k := by
  have edits (xs ys : List Char) : Edits (distance xs ys) xs ys := (distance_isLeast xs ys).1
  have least {n : Nat} {xs ys : List Char} (h : Edits n xs ys) : distance xs ys ≤ n :=
    (distance_isLeast xs ys).2 h
  refine ⟨distance_isLeast, fun xs ys => ?_, fun xs ys => ⟨fun h => ?_, ?_⟩, fun xs ys zs => ?_,
    fun _ => ascii_of_mem_names, ?_⟩
  · exact Nat.le_antisymm (least (edits ys xs).symm) (least (edits xs ys).symm)
  · exact Edits.zero_iff.mp (h ▸ edits xs ys)
  · rintro rfl
    exact Nat.le_zero.mp (least (.none xs))
  · exact least ((edits xs ys).trans (edits ys zs))
  intro known s lowered h
  have from_lowered {k : String} (hk : k ∈ known) : distanceTo s k = distance lowered k.toList := by
    rcases h with rfl | ⟨h, ascii⟩
    · rfl
    · exact distanceTo_eq h (ascii k hk)
  refine ⟨_, rfl, ?_, fun name => ?_⟩
  · rw [← Option.ne_none_iff_isSome, Ne, suggestion?_eq_none_iff]
    push Not
    exact exists_congr fun k => and_congr_right fun hk => by rw [from_lowered hk, suggestionRange]
  · rw [suggestion?_eq_some_iff, suggestionRange]
    refine and_congr_right fun mem => ?_
    rw [from_lowered mem]
    refine and_congr_right fun _ => forall₂_congr fun k hk => imp_congr_right fun _ => ?_
    rw [rank_lt_iff, from_lowered mem, from_lowered hk]

/-- The name is three edits from each of two presets, however its first letter is lowered. -/
theorem suggests_nearest_custom :
    Lowered "ÉCUST".toList "écust".toList ∧
      unknown names "ÉCUST" = .unknownPreset "ÉCUST" (some "custom") := by
  have lowered : Lowered "ÉCUST".toList "écust".toList :=
    .foreign (by decide) (by decide) (by decide)
      (.letter 'C' (.letter 'U' (.letter 'S' (.letter 'T' .nil))))
  refine ⟨lowered, ?_⟩
  obtain ⟨-, -, -, -, ascii, nearest⟩ := suggests_nearest
  obtain ⟨suggestion, reported, -, named⟩ := nearest names "ÉCUST" _ (.inr ⟨lowered, ascii⟩)
  rw [reported, (named "custom").mpr ⟨by decide, by decide +kernel, ?_⟩]
  intro k hk other
  obtain ⟨p, -, rfl⟩ := List.mem_map.mp hk
  cases p with
  | custom => exact absurd rfl other
  | fast => exact .inr (by decide +kernel)
  | balanced => exact .inl (by decide +kernel)
  | thorough => exact .inl (by decide +kernel)

end Preset

end Misuse
