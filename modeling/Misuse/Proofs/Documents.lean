import Misuse.Proofs.Spelling
import Misuse.Rule.Document

/-!
# Rules are read from what is written of them

The tree that is written of a rule is plain, and reading it gives the rule
(`Rule.restores`). The integers of the rule have to fit their types, and its sets of states have to
be increasing lists (`Rule.representable`).
-/

namespace Misuse

namespace Json

/-! ## Depths -/

theorem depth_le_of_mem_items {j : Json} {items : List Json} (h : j ∈ items) :
    j.depth ≤ depthOfItems items := by
  induction h with
  | head items => exact Nat.le_max_left ..
  | tail k _ ih => exact ih.trans (Nat.le_max_right ..)

/-! ## Records -/

/-- A field whose name no other field has is the only one of that name. -/
theorem filter_name {fields : List (String × Json)} (nodup : (fields.map Prod.fst).Nodup)
    {f : String × Json} (h : f ∈ fields) : fields.filter (fun g => g.1 == f.1) = [f] := by
  induction fields with
  | nil => cases h
  | cons g fields ih =>
    obtain ⟨fresh, nodup⟩ := List.nodup_cons.mp nodup
    obtain rfl | h := List.mem_cons.mp h
    · have none : fields.filter (fun g => g.1 == f.1) = [] := by
        rw [List.filter_eq_nil_iff]
        intro g hg same
        exact fresh (List.mem_map.mpr ⟨g, hg, beq_iff_eq.mp same⟩)
      rw [List.filter_cons_of_pos (by simp), none]
    · have other : ¬ g.1 = f.1 := fun same => fresh (List.mem_map.mpr ⟨f, h, same.symm⟩)
      rw [List.filter_cons_of_neg (by simpa using other), ih nodup h]

theorem mapM_named? {fields known : List (String × Json)} {shape : Shape}
    (names : known.map Prod.fst = shape.map Prod.fst)
    (single : ∀ f ∈ known, fields.filter (fun g => g.1 == f.1) = [f]) :
    shape.mapM (named? fields) = some (known.map fun f => some f.2) := by
  induction known generalizing shape with
  | nil =>
    rw [List.map_nil, eq_comm, List.map_eq_nil_iff] at names
    subst names
    rfl
  | cons f known ih =>
    obtain ⟨⟨name, presence⟩, shape, rfl, rfl, tail⟩ := List.map_eq_cons_iff.mp names.symm
    obtain ⟨first, single⟩ := List.forall_mem_cons.mp single
    have found : named? fields (f.1, presence) = some (some f.2) := by
      cases presence <;> simp [named?, first]
    have more := ih tail.symm single
    simp [List.mapM_cons, found, more]

/-- A record with the fields of the shape, each once and in order. -/
theorem fields?_record {shape : Shape} {fields : List (String × Json)}
    (names : fields.map Prod.fst = shape.map Prod.fst) (nodup : (shape.map Prod.fst).Nodup) :
    fields? shape (.record fields) = some (fields.map fun f => some f.2) :=
  mapM_named? names fun _ => filter_name (names ▸ nodup)

/-! ## Written values -/

/-- The tree is plain, and reading it gives the value. -/
structure Restores (read? : Json → Option α) (j : Json) (a : α) : Prop where
  plain : j.Plain
  read : read? j = some a

namespace Restores

theorem text (s : String) : Restores text? (.text s) s := ⟨.text s, rfl⟩

theorem bool (b : Bool) : Restores bool? (.bool b) b := ⟨.bool b, rfl⟩

theorem nat {n : Nat} (h : n ≤ Integer.greatestSize) : Restores nat? (.int n) n where
  plain := .int (Int.le_trans (by decide) (Int.natCast_nonneg n)) (Int.ofNat_le.mpr h)
  read := rfl

theorem list {read? : Json → Option α} {toJson : α → Json} {items : List α}
    (h : ∀ a ∈ items, Restores read? (toJson a) a) :
    Restores (list? read?) (.ofList toJson items) items where
  plain := .list fun j hj => by
    obtain ⟨a, ha, rfl⟩ := List.mem_map.mp hj
    exact (h a ha).plain
  read := by
    rw [ofList, list?]
    induction items with
    | nil => rfl
    | cons a items ih =>
      obtain ⟨first, more⟩ := List.forall_mem_cons.mp h
      simp [List.mapM_cons, first.read, ih more]

theorem option {read? : Json → Option α} {toJson : α → Json} (present : ∀ a, toJson a ≠ .null)
    {o : Option α} (h : ∀ a ∈ o, Restores read? (toJson a) a) :
    Restores (option? read?) (.ofOption toJson o) o where
  plain := by
    cases o with
    | none => exact .null
    | some a => exact (h a rfl).plain
  read := by
    cases o with
    | none => rfl
    | some a =>
      have read := (h a rfl).read
      rw [ofOption]
      unfold option?
      split
      · exact absurd ‹_› (present a)
      · rw [read]
        rfl

end Restores

theorem plain_choose {name : String} {j : Json} (h : j.Plain) : (choose name j).Plain :=
  .record (by simpa using h)

end Json

open Json (Restores)

/-! ## What can be written -/

instance Sorted.decidableIncreasing {α : Type} [Ord α] (s : List α) : Decidable (Increasing s) :=
  inferInstanceAs (Decidable (s.Pairwise fun a b => compare a b = .lt))

namespace Constant

mutual

/-- Every integer in it has 64 bits. -/
def representable : Constant → Bool
  | .int n => Integer.fits n
  | .array items => representableItems items
  | _ => true

def representableItems : List Constant → Bool
  | [] => true
  | c :: cs => representable c && representableItems cs

end

theorem representable_of_mem {c : Constant} {items : List Constant} (h : c ∈ items)
    (all : representableItems items = true) : c.representable = true := by
  induction h with
  | head items => exact (Bool.and_eq_true_iff.mp all).1
  | tail d _ ih => exact ih (Bool.and_eq_true_iff.mp all).2

end Constant

/-- The index is a size. -/
def Cut.representable (c : Cut) : Bool := decide (c.index ≤ Integer.greatestSize)

def Variable.representable (v : Variable) : Bool := v.cut.all Cut.representable

def Operand.representable : Operand → Bool
  | .var v | .length v => v.representable
  | .literal c => c.representable

def Arithmetic.representable (e : Arithmetic) : Bool :=
  e.left.representable && e.right.representable

def Term.representable : Term → Bool
  | .var v => v.representable
  | _ => true

def Atom.representable (a : Atom) : Bool := a.terms.all Term.representable

def Constraint.representable : Constraint → Bool
  | .member v _ => v.representable
  | .arithmetic e => e.representable
  | .compare l _ r => l.representable && r.representable
  | .connect l _ r => l.representable && r.representable
  | .atom a => a.representable
  | .guarded a g => a.representable && g.representable
  | .throws _ _ => true

def Predicate.representable (p : Predicate) : Bool :=
  p.atom.representable && p.guard.all Constraint.representable

/-- A set of states is an increasing list. -/
def Effect.representable (e : Effect) : Bool :=
  e.predicate.representable && e.scope.all fun states => decide (Sorted.Increasing states)

/-- The integers of a rule fit their types, and its sets of states are increasing lists. -/
def Rule.representable (r : Rule) : Bool :=
  decide (Sorted.Increasing r.automaton.initial) && r.constraints.all Constraint.representable &&
    r.effects.all Effect.representable

/-! ## Constants -/

namespace Constant

theorem toJsonItems_eq_map (items : List Constant) : toJsonItems items = items.map toJson := by
  induction items with
  | nil => rfl
  | cons c items ih => rw [toJsonItems, ih, List.map_cons]

/-- Fuel for the depth of the tree is enough to read it. -/
theorem restores_read? {fuel : Nat} {c : Constant} (h : c.representable = true)
    (deep : c.toJson.depth < fuel) : Restores (read? fuel) c.toJson c := by
  induction fuel generalizing c with
  | zero => exact absurd deep (Nat.not_lt_zero _)
  | succ fuel ih =>
    cases c with
    | int n =>
      obtain ⟨least, greatest⟩ : Integer.least ≤ n ∧ n ≤ Integer.greatest := by
        simpa [representable, Integer.fits] using h
      have size : n ≤ Integer.greatestSize := Int.le_trans greatest (by decide)
      exact ⟨Json.plain_choose (.int least size),
        by simp [toJson, read?, Json.choose, Json.choice?, int64?, Json.int?,
          show Integer.fits n = true from h]⟩
    | bool b => exact ⟨Json.plain_choose (.bool b), rfl⟩
    | text s => exact ⟨Json.plain_choose (.text s), rfl⟩
    | null => exact ⟨.text _, rfl⟩
    | array items =>
      have tree : toJson (.array items) = Json.choose "Array" (.ofList toJson items) := by
        rw [toJson, toJsonItems_eq_map]
        rfl
      rw [tree] at deep ⊢
      have members : Restores (Json.list? (read? fuel)) (.ofList toJson items) items := by
        refine .list fun c hc => ih (representable_of_mem hc h) ?_
        have within := Json.depth_le_of_mem_items (List.mem_map_of_mem (f := toJson) hc)
        simp only [Json.choose, Json.ofList, Json.depth, Json.depthOfFields] at deep
        omega
      exact ⟨Json.plain_choose members.plain,
        by simp [read?, Json.choose, Json.choice?, members.read]⟩

theorem restores {c : Constant} (h : c.representable = true) : Restores ofJson? c.toJson c := by
  have read := restores_read? h (Nat.lt_succ_self _)
  exact ⟨read.plain, read.read⟩

end Constant

/-! ## Methods -/

theorem Parameter.restores (p : Parameter) : Restores ofJson? p.toJson p where
  plain := .record (by simp [Json.Plain.text])
  read := by
    rw [ofJson?, toJson, Json.fields?_record rfl (by decide)]
    rfl

theorem Signature.restores (m : Signature) : Restores ofJson? m.toJson m := by
  have params := Restores.list fun p (_ : p ∈ m.params) => p.restores
  refine ⟨.record ?_, ?_⟩
  · simp [Json.Plain.text, params.plain, m.result.restores.plain]
  · rw [ofJson?, toJson, Json.fields?_record rfl (by decide)]
    simp [params.read, m.result.restores.read, Json.text?]

/-! ## Variables and arithmetic -/

theorem Cut.restores {c : Cut} (h : c.representable = true) : Restores ofJson? c.toJson c := by
  have index := Restores.nat (of_decide_eq_true h)
  refine ⟨.record (by simp [Json.Plain.text, index.plain]), ?_⟩
  rw [ofJson?, toJson, Json.fields?_record rfl (by decide)]
  simp [index.read, Json.text?]

theorem Variable.restores {v : Variable} (h : v.representable = true) :
    Restores ofJson? v.toJson v := by
  have cut : Restores (Json.option? Cut.ofJson?) (.ofOption Cut.toJson v.cut) v.cut :=
    .option (fun _ => Json.noConfusion) fun c hc =>
      Cut.restores ((Option.all_eq_true _ _).mp h c hc)
  refine ⟨.record (by simp [Json.Plain.text, cut.plain]), ?_⟩
  rw [ofJson?, toJson, Json.fields?_record rfl (by decide)]
  simp [cut.read, Json.text?]

theorem Operand.restores {o : Operand} (h : o.representable = true) :
    Restores ofJson? o.toJson o := by
  cases o with
  | var v =>
    have v := Variable.restores h
    exact ⟨Json.plain_choose v.plain, by simp [ofJson?, toJson, Json.choose, Json.choice?, v.read]⟩
  | literal c =>
    have c := Constant.restores h
    exact ⟨Json.plain_choose c.plain, by simp [ofJson?, toJson, Json.choose, Json.choice?, c.read]⟩
  | length v =>
    have v := Variable.restores h
    exact ⟨Json.plain_choose v.plain, by simp [ofJson?, toJson, Json.choose, Json.choice?, v.read]⟩

theorem Arithmetic.Op.ofJson?_name (op : Op) : ofJson? (.text op.name) = some op := by
  cases op <;> rfl

theorem Comparison.ofJson?_name (op : Comparison) : ofJson? (.text op.name) = some op := by
  cases op <;> rfl

theorem Connective.ofJson?_name (op : Connective) : ofJson? (.text op.name) = some op := by
  cases op <;> rfl

theorem Arithmetic.restores {e : Arithmetic} (h : e.representable = true) :
    Restores ofJson? e.toJson e := by
  obtain ⟨hl, hr⟩ := Bool.and_eq_true_iff.mp h
  have left := Operand.restores hl
  have right := Operand.restores hr
  refine ⟨.record (by simp [Json.Plain.text, left.plain, right.plain]), ?_⟩
  rw [ofJson?, toJson, Json.fields?_record rfl (by decide)]
  simp [left.read, right.read, Op.ofJson?_name]

/-! ## Predicates and constraints -/

theorem Term.restores {t : Term} (h : t.representable = true) : Restores ofJson? t.toJson t := by
  cases t with
  | self => exact ⟨.text _, rfl⟩
  | wildcard => exact ⟨.text _, rfl⟩
  | var v =>
    have v := Variable.restores h
    exact ⟨Json.plain_choose v.plain, by simp [ofJson?, toJson, Json.choose, Json.choice?, v.read]⟩
  | method m =>
    have m := m.restores
    exact ⟨Json.plain_choose m.plain, by simp [ofJson?, toJson, Json.choose, Json.choice?, m.read]⟩
  | type name => exact ⟨Json.plain_choose (.text name), rfl⟩

/-- A predicate is read if its guard is. -/
theorem Predicate.restores_readWith? (readGuard? : Json → Option Constraint) {a : Atom}
    (h : a.representable = true) (guard : Option Constraint)
    (guarded : ∀ g ∈ guard, Restores readGuard? g.toJson g) :
    Restores (readWith? readGuard?) (a.toJson (.ofOption Constraint.toJson guard)) ⟨a, guard⟩ := by
  have terms : Restores (Json.list? Term.ofJson?) (.ofList Term.toJson a.terms) a.terms :=
    .list fun t ht => Term.restores (List.all_eq_true.mp h t ht)
  have guard : Restores (Json.option? readGuard?) (.ofOption Constraint.toJson guard) guard :=
    .option (fun g => by cases g <;> exact Json.noConfusion) guarded
  refine ⟨.record (by simp [Json.Plain.text, Json.Plain.bool, terms.plain, guard.plain]), ?_⟩
  rw [readWith?, Atom.toJson, Json.fields?_record rfl (by decide)]
  simp [terms.read, guard.read, Json.text?, Json.bool?]

namespace Constraint

theorem restores_memberOfJson? {v : Variable} (h : v.representable = true)
    (allowed : List String) :
    Restores memberOfJson? (.record [("var", v.toJson), ("allowed", .texts allowed)])
      (.member v allowed) := by
  have v := Variable.restores h
  have allowed := Restores.list fun s (_ : s ∈ allowed) => Restores.text s
  refine ⟨.record (by simp [v.plain, Json.texts, allowed.plain]), ?_⟩
  rw [memberOfJson?, Json.fields?_record rfl (by decide)]
  simp [v.read, Json.texts, allowed.read]

theorem restores_compareOfJson? {l r : Arithmetic} (hl : l.representable = true)
    (hr : r.representable = true) (op : Comparison) :
    Restores compareOfJson?
      (.record [("left", l.toJson), ("right", r.toJson), ("op", .text op.name)])
      (.compare l op r) := by
  have left := Arithmetic.restores hl
  have right := Arithmetic.restores hr
  refine ⟨.record (by simp [Json.Plain.text, left.plain, right.plain]), ?_⟩
  rw [compareOfJson?, Json.fields?_record rfl (by decide)]
  simp [left.read, right.read, Comparison.ofJson?_name]

theorem restores_throwsOfJson? (m : Signature) (exception : String) :
    Restores throwsOfJson? (.record [("method", m.toJson), ("exception", .text exception)])
      (.throws m exception) := by
  refine ⟨.record (by simp [Json.Plain.text, m.restores.plain]), ?_⟩
  rw [throwsOfJson?, Json.fields?_record rfl (by decide)]
  simp [m.restores.read, Json.text?]

/-- Fuel for the depth of the tree is enough to read it. -/
theorem restores_read? {fuel : Nat} {c : Constraint} (h : c.representable = true)
    (deep : c.toJson.depth < fuel) : Restores (read? fuel) c.toJson c := by
  induction fuel generalizing c with
  | zero => exact absurd deep (Nat.not_lt_zero _)
  | succ fuel ih =>
    cases c with
    | member v allowed =>
      have member := restores_memberOfJson? h allowed
      exact ⟨Json.plain_choose member.plain, member.read⟩
    | arithmetic e =>
      have e := Arithmetic.restores h
      exact ⟨Json.plain_choose e.plain, by simp [read?, toJson, Json.choose, Json.choice?, e.read]⟩
    | compare l op r =>
      obtain ⟨hl, hr⟩ := Bool.and_eq_true_iff.mp h
      have compare := restores_compareOfJson? hl hr op
      exact ⟨Json.plain_choose compare.plain, compare.read⟩
    | connect l op r =>
      obtain ⟨hl, hr⟩ := Bool.and_eq_true_iff.mp h
      simp only [toJson, Json.choose, Json.depth, Json.depthOfFields] at deep
      have left := ih hl (by omega)
      have right := ih hr (by omega)
      refine ⟨Json.plain_choose (.record ?_), ?_⟩
      · simp [Json.Plain.text, left.plain, right.plain]
      · simp only [read?, toJson, Json.choose, Json.choice?]
        rw [Json.fields?_record rfl (by decide)]
        simp [left.read, right.read, Connective.ofJson?_name]
    | atom a =>
      have predicate := Predicate.restores_readWith? (read? fuel) h none nofun
      exact ⟨Json.plain_choose predicate.plain, by
        simp only [read?, toJson, Json.choose, Json.choice?]
        exact congrArg (Option.map Predicate.toConstraint) predicate.read⟩
    | guarded a g =>
      obtain ⟨ha, hg⟩ := Bool.and_eq_true_iff.mp h
      simp only [toJson, Atom.toJson, Json.choose, Json.depth, Json.depthOfFields] at deep
      have guard := ih hg (by omega)
      have predicate := Predicate.restores_readWith? (read? fuel) ha (some g)
        (by rintro _ ⟨⟩; exact guard)
      exact ⟨Json.plain_choose predicate.plain, by
        simp only [read?, toJson, Json.choose, Json.choice?]
        exact congrArg (Option.map Predicate.toConstraint) predicate.read⟩
    | throws m exception =>
      have throws := restores_throwsOfJson? m exception
      exact ⟨Json.plain_choose throws.plain, throws.read⟩

theorem restores {c : Constraint} (h : c.representable = true) :
    Restores ofJson? c.toJson c := by
  have read := restores_read? h (Nat.lt_succ_self _)
  exact ⟨read.plain, read.read⟩

end Constraint

theorem Predicate.restores {p : Predicate} (h : p.representable = true) :
    Restores ofJson? p.toJson p := by
  obtain ⟨ha, hg⟩ := Bool.and_eq_true_iff.mp h
  exact restores_readWith? _ ha _ fun g hmem =>
    Constraint.restores ((Option.all_eq_true _ _).mp hg g hmem)

/-! ## Automata -/

/-- A set of names is written in order and read in any order. -/
theorem restores_nameSet {names : List String} (h : Sorted.Increasing names) :
    Restores nameSetOfJson? (.texts names) names := by
  have texts := Restores.list fun s (_ : s ∈ names) => Restores.text s
  refine ⟨texts.plain, ?_⟩
  rw [nameSetOfJson?, Json.texts, texts.read, Option.map_some, Sorted.ofList_eq_self h]

theorem State.restores (s : State) : Restores ofJson? s.toJson s where
  plain := .record (by simp [Json.Plain.text, Json.Plain.bool])
  read := by
    rw [ofJson?, toJson, Json.fields?_record rfl (by decide)]
    rfl

theorem Transition.restores (t : Transition) : Restores ofJson? t.toJson t := by
  have label := Restores.list fun m (_ : m ∈ t.label) => m.restores
  refine ⟨.record (by simp [Json.Plain.text, label.plain]), ?_⟩
  rw [ofJson?, toJson, Json.fields?_record rfl (by decide)]
  simp [label.read, Json.text?]

theorem Automaton.restores {a : Automaton} (h : Sorted.Increasing a.initial) :
    Restores ofJson? a.toJson a := by
  have states := Restores.list fun s (_ : s ∈ a.states) => s.restores
  have initial := restores_nameSet h
  have transitions := Restores.list fun t (_ : t ∈ a.transitions) => t.restores
  refine ⟨.record (by simp [states.plain, initial.plain, transitions.plain]), ?_⟩
  rw [ofJson?, toJson, Json.fields?_record rfl (by decide)]
  simp [states.read, initial.read, transitions.read]

/-! ## Rules -/

theorem Declaration.restores (d : Declaration) : Restores ofJson? d.toJson d where
  plain := .record (by simp [Json.Plain.text])
  read := by
    rw [ofJson?, toJson, Json.fields?_record rfl (by decide)]
    rfl

theorem Ban.restores (b : Ban) : Restores ofJson? b.toJson b := by
  have alternatives := Restores.list fun m (_ : m ∈ b.alternatives) => m.restores
  refine ⟨.record ?_, ?_⟩
  · simp [Json.Plain.bool, b.method.restores.plain, alternatives.plain]
  · rw [ofJson?, toJson, Json.fields?_record rfl (by decide)]
    simp [b.method.restores.read, alternatives.read, Json.getD?, Json.bool?]

theorem Effect.restores {e : Effect} (h : e.representable = true) :
    Restores ofJson? e.toJson e := by
  obtain ⟨hp, hs⟩ := Bool.and_eq_true_iff.mp h
  have predicate := Predicate.restores hp
  have scope : Restores (Json.option? nameSetOfJson?) (.ofOption .texts e.scope) e.scope :=
    .option (fun _ => Json.noConfusion) fun states hstates =>
      restores_nameSet (of_decide_eq_true ((Option.all_eq_true _ _).mp hs states hstates))
  refine ⟨.record (by simp [predicate.plain, scope.plain]), ?_⟩
  rw [ofJson?, toJson, Json.fields?_record rfl (by decide)]
  simp [predicate.read, scope.read]

namespace Rule

/-- **A rule is read from what is written of it.** -/
theorem restores {r : Rule} (h : r.representable = true) : Restores ofJson? r.toJson r := by
  simp only [representable, Bool.and_eq_true, decide_eq_true_eq, List.all_eq_true] at h
  obtain ⟨⟨hinitial, hconstraints⟩, heffects⟩ := h
  have declarations := Restores.list fun d (_ : d ∈ r.declarations) => d.restores
  have bans := Restores.list fun b (_ : b ∈ r.bans) => b.restores
  have automaton := Automaton.restores hinitial
  have constraints := Restores.list fun c hc => Constraint.restores (hconstraints c hc)
  have effects := Restores.list fun e he => Effect.restores (heffects e he)
  refine ⟨.record ?_, ?_⟩
  · simp [Json.Plain.text, declarations.plain, bans.plain, automaton.plain, constraints.plain,
      effects.plain]
  · rw [ofJson?, toJson, Json.fields?_record rfl (by decide)]
    simp [declarations.read, bans.read, automaton.read, constraints.read, effects.read, Json.getD?,
      Json.text?]

end Rule

end Misuse
