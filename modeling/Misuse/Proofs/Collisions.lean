import Misuse.Proofs.Reach

/-!
# Values that share a key

Facts are kept by the keys of values, and a constant is keyed by its text. Constants with a text
share a key exactly if the texts differ in the case of letters only. A constant without one is
keyed by what it shows, and an array shows only its size: arrays of one length share a key, and so
does a text that spells what an array or null shows (`textOfConstant_eq_iff`).

So a published predicate is found for the values it was published for, and for those that are
confused with them (`lookup_published_iff`): the key of another array passes for the generated one
(`lookup_of_confused`).
-/

namespace Misuse

/-! ## Constants -/

namespace Constant

/-- Constants with a text are the same if the texts differ in the case of letters only, and others
if they are equal. -/
def Same (c d : Constant) : Prop :=
  match c.asText?, d.asText? with
  | some s, some t => Text.sameLetters s t = true
  | none, none => c = d
  | _, _ => False

/-- Different constants are confused if one shows what the other does: different arrays of one
length, and a text that spells what an array or null shows. -/
def Confused : Constant → Constant → Prop
  | .array xs, .array ys => xs ≠ ys ∧ xs.length = ys.length
  | .text s, .array items | .array items, .text s => Text.lower s = (array items).display
  | .text s, .null | .null, .text s => Text.lower s = null.display
  | _, _ => False

end Constant

/-- The text of a number consists of digits and a sign. -/
theorem Text.isDigit_or_of_mem_int {n : Int} {c : Char} (h : c ∈ (toString n).toList) :
    c.isDigit = true ∨ c = '-' := by
  have digits {m : Nat} (hc : c ∈ Nat.toDigits 10 m) : c.isDigit = true :=
    Nat.isDigit_of_mem_toDigits (by decide) (by decide) hc
  rw [Int.toString_eq_repr, Int.repr_eq_if] at h
  split at h
  · rw [Nat.toList_repr] at h
    exact .inl (digits h)
  · rw [String.toList_append, Nat.toList_repr] at h
    rcases List.mem_append.mp h with sign | h
    · exact .inr (List.mem_singleton.mp sign)
    · exact .inl (digits h)

/-- It has no letters to lower. -/
theorem Text.lower_int (n : Int) : lower (toString n) = toString n := by
  have same : ∀ c ∈ (toString n).toList, c.toLower = c := by
    intro c hc
    rcases isDigit_or_of_mem_int hc with digit | rfl
    · simp only [Char.isDigit, Bool.and_eq_true, decide_eq_true_eq, ge_iff_le] at digit
      unfold Char.toLower
      rw [dif_neg]
      -- 9 comes before A
      exact fun upper => absurd (UInt32.le_trans upper.1 digit.2) (by decide)
    · rfl
  rw [lower, ← String.toList_inj, String.toList_map, List.map_congr_left same, List.map_id']

/-- Nor has a truth value capitals. -/
theorem Text.lower_bool (b : Bool) : lower (Constant.boolText b) = Constant.boolText b := by
  rw [lower, ← String.toList_inj, String.toList_map]
  cases b <;> decide

namespace Constant

variable {c d : Constant} {s t : String}

theorem same_iff_of_text (hc : c.asText? = some s) (hd : d.asText? = some t) :
    c.Same d ↔ Text.lower s = Text.lower t := by
  rw [Same, hc, hd]
  exact Text.sameLetters_iff s t

theorem confused_comm : c.Confused d ↔ d.Confused c := by
  cases c <;> cases d <;> simp [Confused, eq_comm]

theorem not_confused_of_text (hc : c.asText? = some s) (hd : d.asText? = some t) :
    ¬ c.Confused d := by
  cases c <;> cases d <;> simp_all [Confused, asText?]

/-- What an array or null shows is not the text of a number. -/
theorem lower_int_ne_display (n : Int) (hd : d.asText? = none) :
    Text.lower (toString n) ≠ d.display := by
  have letter {c : Char} (hc : c ∈ d.display.toList) (other : c.isDigit = false ∧ c ≠ '-') :
      Text.lower (toString n) ≠ d.display := by
    intro h
    rw [Text.lower_int] at h
    rcases Text.isDigit_or_of_mem_int (h ▸ hc) with digit | sign
    · exact absurd digit (Bool.eq_false_iff.mp other.1)
    · exact other.2 sign
  cases d with
  | array items => exact letter (c := '[') (by simp [display]) (by decide)
  | null => exact letter (c := 'n') (by decide) (by decide)
  | int | bool | text => cases hd

/-- Nor is it that of a truth value. -/
theorem lower_bool_ne_display (b : Bool) (hd : d.asText? = none) :
    Text.lower (boolText b) ≠ d.display := by
  rw [Text.lower_bool]
  cases d with
  | array items =>
    intro h
    have bracket : '[' ∈ (boolText b).toList := by simp [h, display]
    cases b <;> exact absurd bracket (by decide)
  | null => cases b <;> decide
  | int | bool | text => cases hd

theorem confused_iff_of_text (hc : c.asText? = some s) (hd : d.asText? = none) :
    c.Confused d ↔ Text.lower s = d.display := by
  cases c with
  | text =>
    obtain rfl := Option.some.inj hc
    cases d with
    | array | null => rfl
    | int | bool | text => cases hd
  | int n =>
    obtain rfl := Option.some.inj hc
    exact iff_of_false (by cases d <;> simp [Confused]) (lower_int_ne_display n hd)
  | bool b =>
    obtain rfl := Option.some.inj hc
    exact iff_of_false (by cases d <;> simp [Confused]) (lower_bool_ne_display b hd)
  | array | null => cases hc

/-- Constants without a text show the same if they are equal, or arrays of one length. -/
theorem display_eq_iff (hc : c.asText? = none) (hd : d.asText? = none) :
    c.display = d.display ↔ c = d ∨ c.Confused d := by
  have numeral {m n : Nat} (h : m.repr = n.repr) : m = n := by
    rw [← Nat.ofDigitChars_ten_toDigits (n := m), ← Nat.toList_repr, h, Nat.toList_repr,
      Nat.ofDigitChars_ten_toDigits]
  have bracket (items : List Constant) : (array items).display ≠ null.display := by
    intro h
    have shown : '[' ∈ (array items).display.toList := by simp [display]
    exact absurd (h ▸ shown) (by decide)
  cases c with
  | array xs =>
    cases d with
    | array ys =>
      simp only [display, String.append_left_inj, String.append_right_inj, array.injEq, Confused]
      constructor
      · intro h
        by_cases equal : xs = ys
        · exact .inl equal
        · exact .inr ⟨equal, numeral h⟩
      · rintro (rfl | ⟨-, h⟩)
        · rfl
        · exact congrArg Nat.repr h
    | null => exact iff_of_false (bracket xs) (by simp [Confused])
    | int | bool | text => cases hd
  | null =>
    cases d with
    | array ys => exact iff_of_false (bracket ys).symm (by simp [Confused])
    | null => simp
    | int | bool | text => cases hd
  | int | bool | text => cases hc

end Constant

namespace Key

/-- **Constants share a key if they are the same or confused, and only then.** -/
theorem textOfConstant_eq_iff (c d : Constant) :
    textOfConstant c = textOfConstant d ↔ c.Same d ∨ c.Confused d := by
  unfold textOfConstant
  cases hc : c.asText? with
  | some s =>
    cases hd : d.asText? with
    | some t =>
      rw [Constant.same_iff_of_text hc hd, or_iff_left (Constant.not_confused_of_text hc hd)]
    | none =>
      have different : ¬ c.Same d := by simp [Constant.Same, hc, hd]
      rw [Constant.confused_iff_of_text hc hd, or_iff_right different]
  | none =>
    cases hd : d.asText? with
    | some t =>
      have different : ¬ c.Same d := by simp [Constant.Same, hc, hd]
      rw [Constant.confused_comm, Constant.confused_iff_of_text hd hc, or_iff_right different,
        eq_comm]
    | none =>
      have equal : c.Same d ↔ c = d := by simp [Constant.Same, hc, hd]
      rw [equal]
      exact Constant.display_eq_iff hc hd

end Key

/-! ## Values -/

namespace Value

/-- The same object, or the same constant. -/
def Same (x y : Value) : Prop :=
  match x.content, y.content with
  | .object a, .object b => a = b
  | .constant c, .constant d => c.Same d
  | _, _ => False

def Confused (x y : Value) : Prop :=
  match x.content, y.content with
  | .constant c, .constant d => c.Confused d
  | _, _ => False

end Value

namespace Key

variable {v w : Variable} (hv : v.cut = none)
include hv

theorem ofValue?_eq_none_iff (x : Value) : ofValue? v x = none ↔ x.isResolved = false := by
  obtain ⟨content, type⟩ := x
  cases content <;> simp [ofValue?, Value.isResolved, hv, cutText?]

/-- Values share a key if they are the same or confused, as long as nothing is cut. -/
theorem exists_ofValue?_iff (hw : w.cut = none) (x y : Value) :
    (∃ k, ofValue? v x = some k ∧ ofValue? w y = some k) ↔ x.Same y ∨ x.Confused y := by
  obtain ⟨content, type⟩ := x
  obtain ⟨content', type'⟩ := y
  have texts := textOfConstant_eq_iff
  cases content <;> cases content' <;>
    simp [ofValue?, Value.Same, Value.Confused, hv, hw, cutText?, texts, eq_comm]

end Key

namespace Term

/-- A variable whose values are not cut. -/
def isWhole : Term → Bool
  | .var v => v.cut.isNone
  | _ => false

/-- Nothing is known of the values of the variable. -/
def Unknown (view : View) : Term → Prop
  | .var v => ∀ x ∈ view.valuesOf v.name, x.2.isResolved = false
  | _ => False

/-- Some value of one variable is related to some value of another. -/
def Related (rel : Value → Value → Prop) (view other : View) : Term → Term → Prop
  | .var v, .var w => ∃ x ∈ view.valuesOf v.name, ∃ y ∈ other.valuesOf w.name, rel x.2 y.2
  | _, _ => False

theorem exists_of_isWhole {t : Term} (h : t.isWhole = true) : ∃ v, t = .var v ∧ v.cut = none := by
  cases t with
  | var v => exact ⟨v, rfl, Option.isNone_iff_eq_none.mp h⟩
  | _ => cases h

/-- Variables have a key in common if some of their values are the same or confused. -/
theorem exists_mem_keys_iff {v w : Variable} (hv : v.cut = none) (hw : w.cut = none)
    (view other : View) :
    (∃ k ∈ (Term.var v).keys view, k ∈ (Term.var w).keys other) ↔
      Related (fun x y => x.Same y ∨ x.Confused y) view other (.var v) (.var w) := by
  simp only [mem_keys_var_iff, Related, ← Key.exists_ofValue?_iff hv hw]
  constructor
  · rintro ⟨k, ⟨x, hx, hk⟩, y, hy, hk'⟩
    exact ⟨x, hx, y, hy, k, hk, hk'⟩
  · rintro ⟨x, hx, y, hy, k, hk, hk'⟩
    exact ⟨k, ⟨x, hx, hk⟩, y, hy, hk'⟩

end Term

/-- What is established for a variable within the cap meets the keys of another if nothing is known
of its values, or if some values are the same or confused. -/
theorem Atom.meet_whole_iff {view other : View} {cap : Nat} {a : Atom}
    (within : ¬ a.Overruns view cap) {t u : Term} (ht : t.isWhole = true) (hu : u.isWhole = true)
    (keyed : u.keys other ≠ []) :
    Key.Meet (a.establishedKeys view cap t) (u.keys other) ↔
      t.Unknown view ∨ Term.Related (fun x y => x.Same y ∨ x.Confused y) view other t u := by
  obtain ⟨v, rfl, hv⟩ := Term.exists_of_isWhole ht
  obtain ⟨w, rfl, hw⟩ := Term.exists_of_isWhole hu
  have narrow : Key.any ∉ (Term.var w).keys other := by
    rw [Term.mem_keys_var_iff]
    rintro ⟨y, -, hy⟩
    exact Key.ofValue?_ne_any w y.2 hy
  rw [meet_var_iff keyed, Term.exists_mem_keys_iff hv hw]
  simp only [Key.ofValue?_eq_none_iff hv, within, narrow, false_and, false_or]
  rfl

/-! ## Lookups -/

namespace FactStore

variable {s : FactStore}

/-- Where no fact of a name is a retraction, the facts are what is visible. -/
theorem Agrees.mem_visible_iff_of_positive (h : s.Agrees) {name : String}
    (positive : ∀ f ∈ s.log, f.name = name → f.negated = false) (args : Args) :
    args ∈ s.visible name ↔ ∃ f ∈ s.log, f.name = name ∧ f.args = args := by
  rw [h.standing]
  constructor
  · intro stands
    obtain ⟨f, hf, -, hname, hargs⟩ := exists_of_mem_standing stands
    exact ⟨f, hf, hname, hargs⟩
  · rintro ⟨f, hf, hname, rfl⟩
    refine mem_standing_of_uncovered hf (positive f hf hname) hname fun g hg hneg hgn => ?_
    exact absurd (positive g hg hgn) (hneg ▸ Bool.noConfusion)

section

variable {r : Rule} {t : Trigger} {e : Effect} (he : r.effects[t.effect]? = some e)
  (hneg : e.predicate.atom.negated = false) {view : View} {cap : Nat}
include he hneg

/-- If the facts of a name are those of one effect, a predicate is found if its columns meet those
of the effect. -/
theorem Agrees.finds_iff_of_only (h : s.Agrees)
    (only : ∀ f, f.name = e.predicate.atom.name → (f ∈ s.log ↔ f ∈ r.factsOf view cap t)) {a : Atom}
    (hname : a.name = e.predicate.atom.name) (other : View) :
    s.Finds other a ↔ List.Forall₂ Key.Meet
      (e.predicate.atom.terms.map (e.predicate.atom.establishedKeys view cap))
      (a.columns other) := by
  have positive : ∀ f ∈ s.log, f.name = a.name → f.negated = false := fun f hf hn =>
    Rule.positive_factsOf he hneg view cap f ((only f (hn.trans hname)).mp hf)
  have answers (q : Args) : s.query a.name q = true ↔ ∃ row ∈ Key.rows
      (e.predicate.atom.terms.map (e.predicate.atom.establishedKeys view cap)),
      Args.unify row q = true := by
    have facts := Rule.exists_mem_factsOf_iff he hneg view cap a.name fun row =>
      Args.unify row q = true
    rw [hname, eq_self, true_and] at facts
    rw [h.query_eq_true_iff, ← facts, ← hname]
    constructor
    · rintro ⟨_, hargs, hu⟩
      obtain ⟨f, hf, hn, rfl⟩ := (h.mem_visible_iff_of_positive positive _).mp hargs
      exact ⟨f, (only f (hn.trans hname)).mp hf, hn, hu⟩
    · rintro ⟨f, hf, hn, hu⟩
      have logged := (only f (hn.trans hname)).mpr hf
      exact ⟨f.args, (h.mem_visible_iff_of_positive positive _).mpr ⟨f, logged, hn, rfl⟩, hu⟩
  unfold Finds
  simp only [answers, ← Key.exists_unify_rows_iff]
  constructor
  · rintro ⟨q, hq, row, hrow, hu⟩
    exact ⟨row, hrow, q, hq, hu⟩
  · rintro ⟨row, hrow, q, hq, hu⟩
    exact ⟨q, hq, row, hrow, hu⟩

/-- **For whom a predicate is found.** Take an effect whose terms are variables that are not cut, a
view whose combinations are within the cap, and any history in which the facts of the name are those
of the effect. A predicate of the name whose terms are such variables is found exactly if it is
determined, it has as many terms, and at each place some value of the effect and some value of the
predicate are the same object, the same constant, or constants that are confused. Only a variable of
which no value is known is found for every value. -/
theorem lookup_published_iff (ops : List Op)
    (whole : ∀ t ∈ e.predicate.atom.terms, t.isWhole = true)
    (within : ¬ e.predicate.atom.Overruns view cap)
    (only : ∀ f, f.name = e.predicate.atom.name →
      (f ∈ (after ops).log ↔ f ∈ r.factsOf view cap t))
    {p : Predicate} (hname : p.atom.name = e.predicate.atom.name)
    (whole' : ∀ u ∈ p.atom.terms, u.isWhole = true) (other : View) (cap' : Nat) :
    ((after ops).lookup cap' p other).truth = .ofBool (!p.atom.negated) ↔
      p.atom.Determined other cap' ∧
        List.Forall₂ (fun t u => t.Unknown view ∨
            Term.Related (fun x y => x.Same y ∨ x.Confused y) view other t u)
          e.predicate.atom.terms p.atom.terms := by
  have found := (agrees_after ops).finds_iff_of_only he hneg only hname other
  have answer (b n : Bool) : Truth.ofBool (b != n) = .ofBool (!n) ↔ b = true := by
    cases b <;> cases n <;> decide
  rw [truth_lookup]
  by_cases determined : p.atom.Determined other cap'
  · rw [if_pos determined, answer, decide_eq_true_eq, found, and_iff_right determined, Atom.columns,
      List.forall₂_map_left_iff, List.forall₂_map_right_iff, List.forall₂_iff_zip,
      List.forall₂_iff_zip]
    -- the predicate is determined, so only the values decide at each place
    refine and_congr_right fun _ => forall_congr' fun t => forall_congr' fun u => ?_
    refine imp_congr_right fun h => ?_
    obtain ⟨ht, hu⟩ := List.of_mem_zip h
    exact Atom.meet_whole_iff within (whole t ht) (whole' u hu) (determined.1 u hu)
  · rw [if_neg determined]
    refine iff_of_false ?_ fun h => determined h.1
    cases p.atom.negated <;> decide

end

end FactStore

/-! ## Keys in the program text -/

/-- A generator of keys, whatever the algorithm. -/
def plainGenerator : Rule :=
  { generatorRule with effects := [⟨.plain "generated" [keyTerm], none⟩] }

/-- A cipher whose key is a constant. -/
def literalView (key : Constant) : View :=
  ⟨"c", "c@1", [⟨"2", "key", .argument 0, [⟨.constant key, none⟩]⟩], []⟩

theorem related_literal_iff (rel : Value → Value → Prop) (c d : Constant) :
    Term.Related rel (generatorView [⟨.constant c, none⟩]) (literalView d) keyTerm keyTerm ↔
      rel ⟨.constant c, none⟩ ⟨.constant d, none⟩ := by
  have made : (generatorView [⟨.constant c, none⟩]).valuesOf "key" =
      [("1", ⟨.constant c, none⟩)] := rfl
  have given : (literalView d).valuesOf "key" = [("2", ⟨.constant d, none⟩)] := rfl
  simp only [Term.Related, keyTerm, Variable.whole, made, given, List.mem_singleton,
    exists_eq_left]

/-- A fact of another name comes first, and the fact of the generator is published twice. -/
def publishedTwice (f : Fact) : List FactStore.Op :=
  [.publish ⟨"made", [.any], false, f.origin⟩, .publish f, .publish f]

namespace FactStore

/-- The case of the letters does not matter, and another text is not found. -/
theorem lookup_published_iff_text :
    let p : Predicate := .plain "generated" [keyTerm]
    let view := generatorView [⟨.constant (.text "K1"), none⟩]
    let fact : Fact :=
      ⟨"generated", [.constant "k1"], false, ⟨"Generator", "g", "ready", "1"⟩⟩
    let s := after (publishedTwice fact)
    plainGenerator.effects[generation.effect]? = some ⟨p, none⟩ ∧
      (∀ t ∈ p.atom.terms, t.isWhole = true) ∧
      ¬ p.atom.Overruns view Context.defaultCap ∧
      (∀ f : Fact, f.name = "generated" →
        (f ∈ s.log ↔ f ∈ plainGenerator.factsOf view Context.defaultCap generation)) ∧
      (s.lookup Context.defaultCap p (literalView (.text "k1"))).truth = .yes ∧
      (s.lookup Context.defaultCap p (literalView (.text "k2"))).truth ≠ .yes := by
  intro p view fact s
  have effect : plainGenerator.effects[generation.effect]? = some ⟨p, none⟩ := rfl
  have whole : ∀ t ∈ p.atom.terms, t.isWhole = true := by decide
  have within : ¬ p.atom.Overruns view Context.defaultCap := by decide +kernel
  have facts : plainGenerator.factsOf view Context.defaultCap generation = [fact] := by
    decide +kernel
  have only (f : Fact) (hf : f.name = "generated") :
      f ∈ s.log ↔ f ∈ plainGenerator.factsOf view Context.defaultCap generation := by
    have log : s.log = [⟨"made", [.any], false, fact.origin⟩, fact, fact] := rfl
    have other : f ≠ ⟨"made", [.any], false, fact.origin⟩ := by
      rintro rfl
      exact absurd hf (by decide)
    simp [log, facts, other]
  have found (key : Constant) := lookup_published_iff effect rfl (publishedTwice fact) whole within
    only (p := p) rfl whole (literalView key) Context.defaultCap
  have unlike : ¬ keyTerm.Unknown view := fun unknown => absurd (unknown _ (.head _)) (by decide)
  have places (key : Constant) : List.Forall₂ (fun t u => t.Unknown view ∨
      Term.Related (fun x y => x.Same y ∨ x.Confused y) view (literalView key) t u)
      [keyTerm] [keyTerm] ↔ (Constant.text "K1").Same key ∨
        (Constant.text "K1").Confused key := by
    rw [List.forall₂_cons, and_iff_left .nil, or_iff_right unlike, related_literal_iff]
    rfl
  have upper : Text.lower "K1" = "k1" := by decide +kernel
  have first : Text.lower "k1" = "k1" := by decide +kernel
  have second : Text.lower "k2" = "k2" := by decide +kernel
  have equal : (Constant.text "K1").Same (.text "k1") :=
    (Constant.same_iff_of_text rfl rfl).mpr (upper.trans first.symm)
  have different : ¬ (Constant.text "K1").Same (.text "k2") := by
    rw [Constant.same_iff_of_text rfl rfl, upper, second]
    decide
  have determined : p.atom.Determined (literalView (.text "k1")) Context.defaultCap := by
    decide +kernel
  refine ⟨effect, whole, within, only, ?_, fun h => ?_⟩
  · have here := (places (.text "k1")).mpr (.inl equal)
    exact (found (.text "k1")).mpr ⟨determined, here⟩
  · have here := (found (.text "k2")).mp h
    exact ((places (.text "k2")).mp here.2).elim different id

end FactStore

namespace Session

/-- The cipher needs a generated key, whatever the algorithm. -/
def plainCipher : Rule := { keyedRule with constraints := [.atom ⟨"generated", [keyTerm], false⟩] }

def literalSession : Session :=
  { guardedSession with
    rules := (Rulebook.empty.insert false plainGenerator).insert false plainCipher }

/-- The key that is made and the key that is used stand in the program. -/
def literalOps (made used : Constant) : List Op :=
  [.track "g" "g@1" "Generator", .track "c" "c@1" "Cipher",
   .observe "g" ⟨"1", ⟨"Generator", "generate", ["String"]⟩, "Generator"⟩,
   .observe "c" ⟨"2", ⟨"Cipher", "init", ["Key", "String"]⟩, "Cipher"⟩,
   .supply ⟨"g", "1", "key", .result⟩ [⟨.constant made, none⟩],
   .supply ⟨"c", "2", "key", .argument 0⟩ [⟨.constant used, none⟩]]

/-- The bytes of the key that is used are not those of the generated key. They are as many, so the
predicate is found and nothing is reported; with another byte more it is missing. Nor is null the
text that spells it. -/
theorem lookup_of_confused :
    let p : Predicate := .plain "generated" [keyTerm]
    let made (c : Constant) := generatorView [⟨.constant c, none⟩]
    let facts (c : Constant) := plainGenerator.factsOf (made c) Context.defaultCap generation
    let found (c d : Constant) :=
      ((FactStore.empty.publishAll (facts c)).lookup Context.defaultCap p (literalView d)).truth
    let same (c d : Constant) :=
      List.Forall₂ (Term.Related Value.Same (made c) (literalView d)) p.atom.terms p.atom.terms
    let records (c d : Constant) :=
      (literalSession.run (literalOps c d)).finish.records.map Violation.kind
    let one : Constant := .array [.int 1]
    let two : Constant := .array [.int 2]
    plainGenerator.effects[generation.effect]? = some ⟨p, none⟩ ∧
      (∀ t ∈ p.atom.terms, t.isWhole = true) ∧
      ¬ p.atom.Overruns (made one) Context.defaultCap ∧
      p.atom.Determined (literalView two) Context.defaultCap ∧
      (found one two = .yes ∧ ¬ same one two) ∧
      (found (.text "null") .null = .yes ∧ ¬ same (.text "null") .null) ∧
      start literalSession.settings literalSession.rules literalSession.subtyping =
        .ok literalSession ∧
      literalSession.rules.rejected = [] ∧
      records one two = [] ∧ records one (.array [.int 1, .int 2]) = [.missingPredicate] := by
  intro p made facts found same records one two
  have unlike {c d : Constant} (h : ¬ c.Same d) : ¬ same c d := fun related =>
    h ((related_literal_iff Value.Same c d).mp (List.forall₂_cons.mp related).1)
  have arrays : ¬ one.Same two := by
    change one ≠ two
    decide
  exact ⟨rfl, by decide, by decide +kernel, by decide +kernel, ⟨by decide +kernel, unlike arrays⟩,
    ⟨by decide +kernel, unlike id⟩, rfl, by decide +kernel⟩

end Session

end Misuse
