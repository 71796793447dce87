/-!
# Texts

The characters with the Unicode property `White_Space` are blank; `trim` drops them at both ends. It
drops the blanks around a text without blanks (`trimChars_eq`), and nothing but blanks
(`exists_trimmed`). Texts are compared without regard to the case of the letters A to Z, all other
characters standing for themselves: `sameLetters` is the equality of lowered texts, so it is an
equivalence (`sameLetters_iff`). A qualified name is cut at its last dot.
-/

namespace Misuse.Text

/-! ## Blank characters -/

/-- First and last code point of each range of the property. -/
def blankRanges : List (Nat × Nat) :=
  [(0x09, 0x0D), (0x20, 0x20), (0x85, 0x85), (0xA0, 0xA0), (0x1680, 0x1680),
   (0x2000, 0x200A), (0x2028, 0x2029), (0x202F, 0x202F), (0x205F, 0x205F), (0x3000, 0x3000)]

def isBlank (c : Char) : Bool :=
  blankRanges.any fun (first, last) => decide (first ≤ c.toNat) && decide (c.toNat ≤ last)

/-- Drop the blanks at both ends. -/
def trimChars (s : List Char) : List Char :=
  ((s.dropWhile isBlank).reverse.dropWhile isBlank).reverse

def trim (s : String) : String := String.ofList (trimChars s.toList)

/-- Nothing is left after trimming. -/
def isBlankText (s : String) : Bool := s.toList.all isBlank

/-- The visible characters of ASCII are not blank. -/
theorem isBlank_of_visible {c : Char} (least : 33 ≤ c.toNat) (greatest : c.toNat ≤ 126) :
    isBlank c = false := by
  simp only [isBlank, blankRanges, List.any_cons, List.any_nil, Bool.or_false, Bool.or_eq_false_iff,
    Bool.and_eq_false_iff, decide_eq_false_iff_not]
  omega

theorem dropWhile_isBlank {blanks core : List Char} (rest : List Char)
    (blank : ∀ c ∈ blanks, isBlank c = true) (solid : ∀ c ∈ core, isBlank c = false)
    (some : core ≠ []) : (blanks ++ (core ++ rest)).dropWhile isBlank = core ++ rest := by
  obtain ⟨c, core, rfl⟩ := List.exists_cons_of_ne_nil some
  rw [List.dropWhile_append_of_pos blank, List.cons_append, List.dropWhile_cons_of_neg]
  simp [solid c List.mem_cons_self]

/-- Blanks around a text without blanks are dropped. -/
theorem trimChars_eq {before core after : List Char}
    (blank : ∀ c ∈ before ++ after, isBlank c = true) (solid : ∀ c ∈ core, isBlank c = false)
    (some : core ≠ []) : trimChars (before ++ core ++ after) = core := by
  obtain ⟨front, back⟩ := List.forall_mem_append.mp blank
  have backwards := dropWhile_isBlank [] (fun c hc => back c (List.mem_reverse.mp hc))
    (fun c hc => solid c (List.mem_reverse.mp hc)) (List.reverse_ne_nil_iff.mpr some)
  rw [List.append_nil] at backwards
  rw [trimChars, List.append_assoc, dropWhile_isBlank after front solid some, List.reverse_append,
    backwards, List.reverse_reverse]

/-- What is trimmed off is blank. -/
theorem exists_trimmed (s : List Char) : ∃ before after,
    s = before ++ trimChars s ++ after ∧ ∀ c ∈ before ++ after, isBlank c = true := by
  have split (t : List Char) : t.takeWhile isBlank ++ t.dropWhile isBlank = t :=
    List.takeWhile_append_dropWhile
  refine ⟨s.takeWhile isBlank, ((s.dropWhile isBlank).reverse.takeWhile isBlank).reverse, ?_, ?_⟩
  · rw [trimChars, List.append_assoc, ← List.reverse_append, split, List.reverse_reverse, split]
  · intro c hc
    rcases List.mem_append.mp hc with hc | hc
    · exact List.all_eq_true.mp List.all_takeWhile c hc
    · exact List.all_eq_true.mp List.all_takeWhile c (List.mem_reverse.mp hc)

/-! ## Letter case -/

/-- Lower the letters A to Z. -/
def lower (s : String) : String := s.map Char.toLower

def sameLetters (a b : String) : Bool := lower a == lower b

theorem sameLetters_iff (a b : String) : sameLetters a b = true ↔ lower a = lower b := by
  simp [sameLetters]

/-- Lower to the letters a to z wherever a character has such a form: A to Z, the Kelvin
sign, and the dotted capital I, whose dot becomes a character of its own. -/
def asciiLowered (c : Char) : List Char :=
  if c = '\u212a' then ['k']
  else if c = '\u0130' then ['i', '\u0307']
  else [c.toLower]

/-! ## Names -/

/-- Owner and short name: `a.b.C.run` names `run` of `a.b.C`, and a name without a dot has an empty
owner. -/
def splitQualified (name : String) : String × String :=
  let (short, rest) := name.toList.reverse.span fun c => decide (c ≠ '.')
  match rest with
  | [] => ("", name)
  | _ :: owner => (String.ofList owner.reverse, String.ofList short.reverse)

def owner (name : String) : String := (splitQualified name).1
def shortName (name : String) : String := (splitQualified name).2

/-- The items with a separator between neighbours. -/
def joined (separator : String) (items : List String) : String :=
  separator.intercalate items

end Misuse.Text
