import Mathlib.Algebra.Group.Nat.Defs
import Misuse.Proofs.Spelling
import Misuse.Yaml.Number
import Misuse.Yaml.Printer

/-!
# Reading digits back

The digits of a number are read as that number, in any base and behind any number of zeros
(`natural?_toDigits`). So hexadecimal digits are read back (`natural?_hexDigits`), and sizes are, if
they do not pass the limit (`size?_repr`).
-/

namespace Misuse.Yaml

namespace Number

/-! ## Digits of a base -/

theorem mem_toDigits {base n : Nat} {d : Char} (least : 1 < base) (h : d ∈ Nat.toDigits base n) :
    ∃ k < base, d = Nat.digitChar k := by
  induction n using Nat.strongRecOn with
  | ind n ih =>
    rw [Nat.toDigits_eq_if least] at h
    split at h
    next small => exact ⟨n, small, List.mem_singleton.mp h⟩
    next large =>
      rcases List.mem_append.mp h with h | h
      · exact ih _ (Nat.div_lt_self (by omega) least) h
      · exact ⟨n % base, Nat.mod_lt _ (by omega), List.mem_singleton.mp h⟩

section

variable {base : Nat} {f : Char → Char}

theorem foldl_toDigits (least : 1 < base)
    (value : ∀ k < base, digitValue (f (Nat.digitChar k)) = k) (n : Nat) :
    ((Nat.toDigits base n).map f).foldl (fun n d => base * n + digitValue d) 0 = n := by
  induction n using Nat.strongRecOn with
  | ind n ih =>
    rw [Nat.toDigits_eq_if least]
    split
    next small => simpa using value n small
    next large =>
      have last := value (n % base) (Nat.mod_lt _ (by omega))
      rw [List.map_append, List.foldl_append, ih _ (Nat.div_lt_self (by omega) least),
        List.map_singleton, List.foldl_cons, List.foldl_nil, last, Nat.div_add_mod]

theorem natural?_toDigits (least : 1 < base)
    (value : ∀ k < base, digitValue (f (Nat.digitChar k)) = k) (zeros n : Nat) :
    natural? base (List.replicate zeros (f '0') ++ (Nat.toDigits base n).map f) =
      some n := by
  have zero : digitValue (f '0') = 0 := value 0 (by omega)
  have digits : ∀ d ∈ Nat.toDigits base n, digitValue (f d) < base := by
    intro d hd
    obtain ⟨k, hk, rfl⟩ := mem_toDigits least hd
    rwa [value k hk]
  have leading :
      (List.replicate zeros (f '0')).foldl (fun n d => base * n + digitValue d) 0 = 0 := by
    induction zeros with
    | zero => rfl
    | succ zeros ih =>
      rw [List.replicate_succ, List.foldl_cons, zero, Nat.mul_zero, Nat.add_zero]
      exact ih
  unfold natural?
  rw [if_neg, List.foldl_append, leading, foldl_toDigits least value]
  have positive : 0 < base := by omega
  simpa [Nat.toDigits_ne_nil, zero, positive] using digits

end

/-! ## Hexadecimal digits -/

theorem digitValue_toUpper :
    ∀ k < 16, digitValue (Char.toUpper (Nat.digitChar k)) = k := by decide

theorem natural?_hexDigits (width n : Nat) : natural? 16 (hexDigits width n) = some n :=
  natural?_toDigits (f := Char.toUpper) (by decide) digitValue_toUpper _ n

theorem mem_hexDigits {width n : Nat} {a : Char} (h : a ∈ hexDigits width n) :
    ∃ k < 16, a = Char.toUpper (Nat.digitChar k) := by
  rcases List.mem_append.mp h with h | h
  · exact ⟨0, by decide, List.eq_of_mem_replicate h⟩
  · obtain ⟨d, hd, rfl⟩ := List.mem_map.mp h
    obtain ⟨k, hk, rfl⟩ := mem_toDigits (by decide) hd
    exact ⟨k, hk, rfl⟩

theorem length_hexDigits {width n : Nat} (some : 0 < width) (h : n < 16 ^ width) :
    (hexDigits width n).length = width := by
  have fits := (Nat.length_toDigits_le_iff (by decide) some).mpr h
  simp only [hexDigits, List.length_append, List.length_replicate, List.length_map]
  omega

/-! ## Sizes -/

theorem unsignedChars?_of_head? {ds : List Char} (h : ds.head? ≠ some '0') :
    unsignedChars? ds = natural? 10 ds := by
  have unpadded : hasLeadingZero ds = false := by
    unfold hasLeadingZero
    split <;> simp_all
  unfold unsignedChars?
  split <;> simp_all

theorem unsignedChars?_toDigits (n : Nat) : unsignedChars? (Nat.toDigits 10 n) = some n := by
  rcases Nat.eq_zero_or_pos n with rfl | positive
  · rfl
  · have value : ∀ k < 10, digitValue (id (Nat.digitChar k)) = k := by decide
    have read := natural?_toDigits (by decide) value 0 n
    rw [List.map_id] at read
    rw [unsignedChars?_of_head? (Integer.head?_toDigits_ne positive)]
    exact read

/-- The decimal digits of a size are read as that size, up to the limit. -/
theorem size?_repr {limit n : Nat} (h : n ≤ limit) : size? limit (Nat.repr n) = some n := by
  have unsigned : dropPlus (Nat.toDigits 10 n) = Nat.toDigits 10 n := by
    unfold dropPlus
    split
    next s hs =>
      have mem : '+' ∈ Nat.toDigits 10 n := hs ▸ List.mem_cons_self
      obtain ⟨k, hk, plus⟩ := mem_toDigits (by decide) mem
      exact absurd plus.symm ((by decide : ∀ k < 10, Nat.digitChar k ≠ '+') k hk)
    next => rfl
  rw [size?, Nat.repr_eq_ofList_toDigits, String.toList_ofList, unsigned, unsignedChars?_toDigits]
  exact if_pos h

end Number

end Misuse.Yaml
