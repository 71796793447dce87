import Mathlib
import Misuse.Proofs.Collisions

/-!
# Cutting and lowering

Constraints cut a text and compare the piece without regard to letter case. Keys of facts are made
from the text in lower case, which is cut then. The two orders come to the same wherever the delimiter
occurs at the same places in both texts (`piece?_lower`). A delimiter without letters does so in every
text, and one with letters does not: a capital is never found in lower case, and a small letter is
found where the text has the capital. So facts and constraints see the same pieces of every text
exactly if the delimiter has no letter (`cutsAlike_texts_iff`).
-/

namespace Misuse

namespace Text

/-! ## Lowering -/

theorem toList_lower (s : String) : (lower s).toList = s.toList.map Char.toLower :=
  String.toList_map

theorem lower_ofList (cs : List Char) : lower (String.ofList cs) = String.ofList (cs.map Char.toLower) :=
  String.toList_inj.mp (by rw [toList_lower, String.toList_ofList, String.toList_ofList])

theorem lower_eq_empty_iff (s : String) : lower s = "" ↔ s = "" := by
  rw [← String.toList_inj, ← String.toList_inj, toList_lower]
  exact List.map_eq_nil_iff

/-- Blanks are no letters. -/
theorem isBlank_of_isAlpha {c : Char} (h : c.isAlpha = true) : isBlank c = false := by
  have range : 65 ≤ c.toNat ∧ c.toNat ≤ 90 ∨ 97 ≤ c.toNat ∧ c.toNat ≤ 122 := by
    simpa [Char.isAlpha, Char.isUpper, Char.isLower, UInt32.le_iff_toNat_le] using h
  exact isBlank_of_visible (by omega) (by omega)

theorem isBlank_toLower (c : Char) : isBlank c.toLower = isBlank c := by
  by_cases upper : c.isUpper = true
  · have letter : c.isAlpha = true := by simp [Char.isAlpha, upper]
    rw [isBlank_of_isAlpha letter, isBlank_of_isAlpha (by rw [Char.isAlpha_toLower_eq_isAlpha, letter])]
  · rw [Char.toLower_eq_of_not_isUpper upper]

/-- What is trimmed does not depend on the case of letters. -/
theorem trimChars_map_toLower (s : List Char) :
    trimChars (s.map Char.toLower) = (trimChars s).map Char.toLower := by
  have blank : isBlank ∘ Char.toLower = isBlank := funext isBlank_toLower
  simp only [trimChars, List.dropWhile_map, ← List.map_reverse, blank]

/-- Trimming keeps what is not blank. -/
theorem mem_trimChars {s : List Char} {c : Char} (solid : isBlank c = false) (hc : c ∈ s) :
    c ∈ trimChars s := by
  obtain ⟨before, after, whole, blank⟩ := exists_trimmed s
  have apart : c ∉ before ++ after := fun h => by simp [blank c h] at solid
  rw [List.mem_append, not_or] at apart
  rw [whole, List.mem_append, List.mem_append] at hc
  simpa [apart] using hc

/-! ## Pieces -/

/-- The delimiter occurs at the same places of a text and of that text in lower case. -/
def OccursAlike (delimiter text : List Char) : Prop :=
  ∀ r, r <:+ text → (delimiter <+: r.map Char.toLower ↔ delimiter <+: r)

theorem extendFirst_map (f : Char → Char) (c : Char) (ps : List (List Char)) :
    extendFirst (f c) (ps.map (List.map f)) = (extendFirst c ps).map (List.map f) := by
  cases ps <;> rfl

theorem piecesFrom_map_toLower {d s : List Char} (h : OccursAlike d s) (skip : Nat) :
    piecesFrom d skip (s.map Char.toLower) = (piecesFrom d skip s).map (List.map Char.toLower) := by
  induction s generalizing skip with
  | nil => cases skip <;> rfl
  | cons c r ih =>
    have rest := ih fun r' hr' => h r' (hr'.trans (List.suffix_cons c r))
    cases skip with
    | succ skip => exact rest skip
    | zero =>
      have here : d.isPrefixOf ((c :: r).map Char.toLower) = d.isPrefixOf (c :: r) := by
        rw [Bool.eq_iff_iff, List.isPrefixOf_iff_prefix, List.isPrefixOf_iff_prefix]
        exact h _ (List.suffix_refl _)
      rw [List.map_cons] at here ⊢
      rw [piecesFrom, piecesFrom, here]
      split
      · rw [rest, List.map_cons, List.map_nil]
      · rw [rest, extendFirst_map]

theorem pieces_map_toLower {d s : List Char} (h : OccursAlike d s) :
    pieces d (s.map Char.toLower) = (pieces d s).map (List.map Char.toLower) := by
  unfold pieces
  split
  · simp
  · exact piecesFrom_map_toLower h 0

/-- A delimiter without letters is not touched by lowering, and nothing is lowered to it. -/
theorem occursAlike_of_plain {d : List Char} (plain : ∀ c ∈ d, c.isAlpha = false) (s : List Char) :
    OccursAlike d s := by
  have same {x c : Char} (hx : x.isAlpha = false) : x = c.toLower ↔ x = c := by
    by_cases upper : c.isUpper = true
    · have letter : c.isAlpha = true := by simp [Char.isAlpha, upper]
      constructor
      · rintro rfl
        rw [Char.isAlpha_toLower_eq_isAlpha, letter] at hx
        cases hx
      · rintro rfl
        rw [letter] at hx
        cases hx
    · rw [Char.toLower_eq_of_not_isUpper upper]
  suffices every : ∀ r, d <+: r.map Char.toLower ↔ d <+: r from fun r _ => every r
  induction d with
  | nil => simp
  | cons x d ih =>
    intro r
    cases r with
    | nil => simp
    | cons c r =>
      have first := same (c := c) (plain x (List.mem_cons_self ..))
      rw [List.map_cons, List.cons_prefix_cons, List.cons_prefix_cons, first,
        ih (fun c hc => plain c (List.mem_cons_of_mem x hc)) r]

/-- What has no letter to lower is cut alike. -/
theorem occursAlike_of_lowered {s : List Char} (lowered : s.map Char.toLower = s) (d : List Char) :
    OccursAlike d s := by
  intro r hr
  have same : r.map Char.toLower = r := by
    obtain ⟨front, rfl⟩ := hr
    rw [List.map_append] at lowered
    exact (List.append_inj lowered (List.length_map ..)).2
  rw [same]

/-! ## Delimiters with letters -/

/-- Where a character of the delimiter is missing, nothing is cut. -/
theorem piecesFrom_of_not_mem {d s : List Char} {c : Char} (hd : c ∈ d) (hs : c ∉ s) :
    piecesFrom d 0 s = [s] := by
  induction s with
  | nil => rfl
  | cons x r ih =>
    have no : d.isPrefixOf (x :: r) = false := by
      rw [Bool.eq_false_iff, ne_eq, List.isPrefixOf_iff_prefix]
      exact fun found => hs (found.subset hd)
    rw [piecesFrom, no, ih fun hr => hs (List.mem_cons_of_mem x hr)]
    rfl

theorem piecesFrom_append (d a s : List Char) : piecesFrom d a.length (a ++ s) = piecesFrom d 0 s := by
  induction a with
  | nil => rfl
  | cons c a ih => exact ih

/-- A text over and over. -/
def repeated (d : List Char) (n : Nat) : List Char := (List.replicate n d).flatten

theorem map_repeated (f : Char → Char) (d : List Char) (n : Nat) :
    (repeated d n).map f = repeated (d.map f) n := by
  rw [repeated, repeated, List.map_flatten, List.map_replicate]

theorem mem_repeated_succ_iff {d : List Char} {n : Nat} {c : Char} :
    c ∈ repeated d (n + 1) ↔ c ∈ d := by
  simp [repeated, List.mem_flatten, List.mem_replicate]

/-- A repeated delimiter has nothing between. -/
theorem piecesFrom_repeated {d : List Char} (present : d ≠ []) (n : Nat) :
    piecesFrom d 0 (repeated d n) = List.replicate (n + 1) [] := by
  induction n with
  | zero => rfl
  | succ n ih =>
    obtain ⟨c, d', rfl⟩ := List.exists_cons_of_ne_nil present
    have found : (c :: d').isPrefixOf (c :: (d' ++ repeated (c :: d') n)) = true :=
      List.isPrefixOf_iff_prefix.mpr (List.prefix_append ..)
    have unrolled : repeated (c :: d') (n + 1) = c :: (d' ++ repeated (c :: d') n) := rfl
    rw [unrolled, piecesFrom, found, List.length_cons, Nat.add_sub_cancel, piecesFrom_append, ih]
    rfl

end Text

namespace Cut

theorem piece?_lower {cut : Cut} {s : String}
    (h : Text.OccursAlike cut.delimiter.toList s.toList) :
    cut.piece? (Text.lower s) = (cut.piece? s).map Text.lower := by
  rw [piece?, piece?, Text.toList_lower, Text.pieces_map_toLower h, List.getElem?_map, Option.map_map,
    Option.map_map]
  congr 1
  funext piece
  exact (congrArg String.ofList (Text.trimChars_map_toLower piece)).trans (Text.lower_ofList _).symm

theorem piece?_repeated {cut : Cut} (present : cut.delimiter.toList ≠ []) :
    cut.piece? (String.ofList (Text.repeated cut.delimiter.toList (cut.index + 1))) = some "" := by
  have inside : cut.index < cut.index + 1 + 1 := by omega
  rw [piece?, String.toList_ofList, Text.pieces, List.isEmpty_eq_false_iff.mpr present,
    if_neg Bool.false_ne_true, Text.piecesFrom_repeated present, List.getElem?_replicate, if_pos inside]
  rfl

/-- A text with letters that lacks a character of the delimiter has no empty piece. -/
theorem piece?_ne_of_not_mem {cut : Cut} {s : String} {c x : Char}
    (hc : c ∈ cut.delimiter.toList) (missing : c ∉ s.toList)
    (hx : x ∈ s.toList) (letter : x.isAlpha = true) : cut.piece? s ≠ some "" := by
  rw [piece?, Text.pieces, List.isEmpty_eq_false_iff.mpr (List.ne_nil_of_mem hc),
    if_neg Bool.false_ne_true, Text.piecesFrom_of_not_mem hc missing]
  have left := Text.mem_trimChars (Text.isBlank_of_isAlpha letter) hx
  cases cut.index with
  | zero =>
    intro h
    have none : Text.trimChars s.toList = [] := by simpa using h
    rw [none] at left
    cases left
  | succ => simp

/-- A delimiter with capitals, repeated, has pieces. In lower case the capitals are missing. -/
theorem exists_piece?_lower_ne_of_isUpper {cut : Cut} {c : Char}
    (hc : c ∈ cut.delimiter.toList) (capital : c.isUpper = true) :
    ∃ s, cut.piece? (Text.lower s) ≠ (cut.piece? s).map Text.lower := by
  have present := List.ne_nil_of_mem hc
  have letter : c.isAlpha = true := by rw [Char.isAlpha, capital, Bool.true_or]
  refine ⟨String.ofList (Text.repeated cut.delimiter.toList (cut.index + 1)), ?_⟩
  rw [piece?_repeated present, Option.map_some, (Text.lower_eq_empty_iff "").mpr rfl,
    Text.lower_ofList, Text.map_repeated]
  refine piece?_ne_of_not_mem hc ?_ (x := c.toLower) ?_ ?_
  · rw [String.toList_ofList, Text.mem_repeated_succ_iff, List.mem_map]
    rintro ⟨x, -, rfl⟩
    rw [Char.isUpper_toLower_eq_false] at capital
    cases capital
  · rw [String.toList_ofList, Text.mem_repeated_succ_iff]
    exact List.mem_map_of_mem hc
  · rw [Char.isAlpha_toLower_eq_isAlpha, letter]

/-- A delimiter without capitals, but with letters, is not found in its repeated capital form, but
for lowering that. -/
theorem exists_piece?_lower_ne_of_isLower {cut : Cut} {c : Char}
    (hc : c ∈ cut.delimiter.toList) (small : c.isLower = true)
    (capitals : ∀ x ∈ cut.delimiter.toList, x.isUpper = false) :
    ∃ s, cut.piece? (Text.lower s) ≠ (cut.piece? s).map Text.lower := by
  have present := List.ne_nil_of_mem hc
  have letter : c.isAlpha = true := by rw [Char.isAlpha, small, Bool.or_true]
  have lowered : (cut.delimiter.toList.map Char.toUpper).map Char.toLower = cut.delimiter.toList := by
    rw [List.map_map]
    refine (List.map_congr_left fun x hx => ?_).trans (List.map_id' _)
    rw [Function.comp_apply, Char.toLower_toUpper_eq_toLower,
      Char.toLower_eq_of_not_isUpper (by rw [capitals x hx]; exact Bool.false_ne_true)]
  refine ⟨String.ofList (Text.repeated (cut.delimiter.toList.map Char.toUpper) (cut.index + 1)), ?_⟩
  rw [Text.lower_ofList, Text.map_repeated, lowered, piece?_repeated present]
  intro h
  obtain ⟨t, ht, empty⟩ := Option.map_eq_some_iff.mp h.symm
  obtain rfl := (Text.lower_eq_empty_iff t).mp empty
  refine piece?_ne_of_not_mem hc ?_ (x := c.toUpper) ?_ ?_ ht
  · rw [String.toList_ofList, Text.mem_repeated_succ_iff, List.mem_map]
    rintro ⟨x, -, rfl⟩
    rw [Char.isLower_toUpper_eq_false] at small
    cases small
  · rw [String.toList_ofList, Text.mem_repeated_succ_iff]
    exact List.mem_map_of_mem hc
  · rw [Char.isAlpha_toUpper_eq_isAlpha, letter]

/-- A delimiter with letters cuts some text and its lower-case form apart. -/
theorem exists_piece?_lower_ne {cut : Cut} {c : Char} (hc : c ∈ cut.delimiter.toList)
    (letter : c.isAlpha = true) :
    ∃ s, cut.piece? (Text.lower s) ≠ (cut.piece? s).map Text.lower := by
  by_cases capital : ∃ x ∈ cut.delimiter.toList, x.isUpper = true
  · obtain ⟨x, hx, upper⟩ := capital
    exact exists_piece?_lower_ne_of_isUpper hx upper
  · have capitals : ∀ x ∈ cut.delimiter.toList, x.isUpper = false := by simpa using capital
    rw [Char.isAlpha, capitals c hc, Bool.false_or] at letter
    exact exists_piece?_lower_ne_of_isLower hc letter capitals

end Cut

namespace Variable

variable {v : Variable} {x : Value} {s : String}

/-- A fact about the value and a constraint on it see the same piece, the fact in lower case. -/
def CutsAlike (v : Variable) (x : Value) : Prop :=
  ∀ k, Key.ofValue? v x = some (.constant k) ↔ ∃ t, v.textOf? x = some t ∧ k = Text.lower t

theorem cutsAlike_iff (text : x.constant?.bind Constant.asText? = some s) :
    v.CutsAlike x ↔ cutText? v.cut (Text.lower s) = (cutText? v.cut s).map Text.lower := by
  have key : Key.ofValue? v x = (cutText? v.cut (Text.lower s)).map .constant := by
    obtain ⟨c, hx, hc⟩ := Option.bind_eq_some_iff.mp text
    obtain ⟨content, type⟩ := x
    cases content with
    | constant =>
      obtain rfl := Option.some.inj hx
      simp only [Key.ofValue?, Key.textOfConstant, hc]
    | object | unknown => cases hx
  rw [CutsAlike, key, textOf?, text, Option.bind_some, Option.ext_iff]
  simp [eq_comm]

theorem cutsAlike_of_occursAlike (text : x.constant?.bind Constant.asText? = some s)
    (h : ∀ cut, v.cut = some cut → Text.OccursAlike cut.delimiter.toList s.toList) :
    v.CutsAlike x := by
  rw [cutsAlike_iff text]
  cases hv : v.cut with
  | none => rfl
  | some cut => exact Cut.piece?_lower (h cut hv)

theorem cutsAlike_of_lowered (text : x.constant?.bind Constant.asText? = some s)
    (lowered : Text.lower s = s) : v.CutsAlike x := by
  have same : s.toList.map Char.toLower = s.toList := by rw [← Text.toList_lower, lowered]
  exact cutsAlike_of_occursAlike text fun cut _ => Text.occursAlike_of_lowered same _

/-- **A fact and a constraint cut every text alike exactly if the delimiter has no letters.** Whatever
the delimiter, they cut a text alike if it occurs at the same places of the text in lower case, and so
every number and truth value. -/
theorem cutsAlike_texts_iff (v : Variable) :
    ((∀ x s, x.constant?.bind Constant.asText? = some s → v.CutsAlike x) ↔
      ∀ cut, v.cut = some cut → ∀ c ∈ cut.delimiter.toList, c.isAlpha = false) ∧
    (∀ x s, x.constant?.bind Constant.asText? = some s →
      (∀ cut, v.cut = some cut → Text.OccursAlike cut.delimiter.toList s.toList) → v.CutsAlike x) ∧
    (∀ x n, x.constant? = some (.int n) → v.CutsAlike x) ∧
    (∀ x b, x.constant? = some (.bool b) → v.CutsAlike x) := by
  refine ⟨⟨fun every cut hv c hc => ?_, fun plain x s text => ?_⟩,
    fun x s => cutsAlike_of_occursAlike, fun x n number => ?_, fun x b truth => ?_⟩
  · by_contra letter
    obtain ⟨s, apart⟩ := Cut.exists_piece?_lower_ne hc (Bool.not_eq_false _ ▸ letter)
    have text : (Value.mk (.constant (.text s)) none).constant?.bind Constant.asText? = some s := rfl
    have same := (cutsAlike_iff text).mp (every _ s text)
    rw [hv] at same
    exact apart same
  · exact cutsAlike_of_occursAlike text fun cut hv => Text.occursAlike_of_plain (plain cut hv) _
  · exact cutsAlike_of_lowered (congrArg (Option.bind · Constant.asText?) number) (Text.lower_int n)
  · exact cutsAlike_of_lowered (congrArg (Option.bind · Constant.asText?) truth) (Text.lower_bool b)

/-- The mode of a transformation is cut alike, in whatever case it is spelt. -/
theorem cutsAlike_texts_iff_mode :
    ((Variable.whole "transformation" "String").mode).CutsAlike
      ⟨.constant (.text "AES/Cbc/PKCS5Padding"), none⟩ :=
  (cutsAlike_texts_iff _).1.mpr
    (fun cut hv c hc => by
      obtain rfl := Option.some.inj hv
      obtain rfl : c = '/' := by simpa using hc
      rfl)
    _ _ rfl

/-- `With` is not found in lower case: the constraint sees `MD5`, and the fact has no key. -/
theorem not_cutsAlike_capital :
    let v : Variable := ⟨"alg", "String", some ⟨1, "With"⟩⟩
    let x : Value := ⟨.constant (.text "PBEWithMD5"), none⟩
    v.textOf? x = some "MD5" ∧ Key.ofValue? v x = none ∧ ¬ v.CutsAlike x := by
  intro v x
  have text : v.textOf? x = some "MD5" := by decide
  have key : Key.ofValue? v x = none := by decide +kernel
  refine ⟨text, key, fun alike => ?_⟩
  have found := (alike (Text.lower "MD5")).mpr ⟨_, text, rfl⟩
  rw [key] at found
  cases found

end Variable

end Misuse
