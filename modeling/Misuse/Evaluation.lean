import Misuse.Call
import Misuse.Constraint.Predicate
import Misuse.Matching
import Misuse.Truth

/-!
# Evaluating constraints

`Constraint.evaluate` judges a constraint against the view of one object. A constraint has
to hold for every combination of the values bound to its variables: one offending
combination makes it false, else one undetermined combination makes it unclear. A variable
without values constrains nothing. Texts are compared without regard to letter case.
-/

namespace Misuse

/-- Decides predicates that are not built in. -/
abbrev Lookup := Predicate → View → Verdict

/-- Nothing was ever published: exactly the negated predicates hold. -/
def noFacts : Lookup := fun p _ => .plain (.ofBool p.atom.negated)

structure Context where
  view : View
  lookup : Lookup
  subtyping : Subtyping
  /-- The most combinations of values that are looked at. -/
  cap : Nat

namespace Context

def defaultCap : Nat := 256

/-- At least one combination is always looked at. -/
def limit (ctx : Context) : Nat := max ctx.cap 1

end Context

/-! ## Scalars -/

inductive Scalar where
  | int (value : Int)
  | text (value : String)
  deriving DecidableEq, Repr, Inhabited

namespace Scalar

def ofConstant? : Constant → Option Scalar
  | .int n => some (.int n)
  | .text s => some (.text s)
  | .bool b => some (.text (Constant.boolText b))
  | .array _ | .null => none

/-- The integer a scalar is or spells. -/
def asInt? : Scalar → Option Int
  | .int n => some n
  | .text s => Integer.ofText? s

end Scalar

namespace Variable

/-- The text of a value, cut as the variable says. -/
def textOf? (v : Variable) (x : Value) : Option String :=
  (x.constant?.bind Constant.asText?).bind (cutText? v.cut)

def scalarOf? (v : Variable) (x : Value) : Option Scalar :=
  match v.cut with
  | some _ => (v.textOf? x).map .text
  | none => x.constant?.bind Scalar.ofConstant?

def lengthOf? (v : Variable) (x : Value) : Option Nat :=
  match v.cut with
  | some _ => (v.textOf? x).map fun s => s.toList.length
  | none => x.constant?.bind Constant.length?

end Variable

/-! ## Expressions -/

/-- One combination of operand values: the value of the expression, if it is determined,
and the sites that bound the operands. -/
structure Candidate where
  value : Option Scalar
  sites : List String
  deriving DecidableEq, Repr, Inhabited

namespace Arithmetic

def Op.compute? : Op → Int → Int → Option Int
  | .add => Integer.add?
  | .sub => Integer.sub?
  | .mod => Integer.rem?

end Arithmetic

namespace Operand

def candidates (view : View) : Operand → List Candidate
  | .literal c => [⟨Scalar.ofConstant? c, []⟩]
  | .var v => (view.valuesOf v.name).map fun (site, x) => ⟨v.scalarOf? x, [site]⟩
  | .length v =>
    (view.valuesOf v.name).map fun (site, x) =>
      ⟨(v.lengthOf? x).map fun n => .int (n : Int), [site]⟩

end Operand

namespace Arithmetic

def combine (op : Op) (l r : Candidate) : Candidate :=
  ⟨((l.value.bind Scalar.asInt?).bind fun a =>
      (r.value.bind Scalar.asInt?).bind fun b => (op.compute? a b).map .int),
    l.sites ++ r.sites⟩

/-- One candidate for each pair of operand values, row by row; `none` if there are more
than the limit. A lone operand is not capped. -/
def candidates? (view : View) (limit : Nat) (e : Arithmetic) : Option (List Candidate) :=
  let left := e.left.candidates view
  if e.isLift then some left
  else
    let right := e.right.candidates view
    if left.length * right.length > limit then none
    else some (left.flatMap fun l => right.map fun r => combine e.op l r)

end Arithmetic

/-! ## Comparisons -/

namespace Comparison

def ofOrdering (op : Comparison) (o : Ordering) : Bool :=
  match op with
  | .eq => o == .eq
  | .ne => o != .eq
  | .gt => o == .gt
  | .ge => o != .lt
  | .lt => o == .lt
  | .le => o != .gt

/-- Numbers are compared as numbers. Other scalars are equal only as texts, and have no
order. -/
def judge (op : Comparison) (a b : Scalar) : Truth :=
  match a.asInt?, b.asInt? with
  | some m, some n => .ofBool (op.ofOrdering (compare m n))
  | _, _ =>
    let equal := match a, b with
      | .text s, .text t => Text.sameLetters s t
      | _, _ => false
    match op with
    | .eq => .ofBool equal
    | .ne => .ofBool !equal
    | _ => .unclear

def judgeOption (op : Comparison) : Option Scalar → Option Scalar → Truth
  | some a, some b => op.judge a b
  | _, _ => .unclear

end Comparison

/-! ## Verdicts -/

/-- The verdict over judged items, each with the sites it came from. -/
def Verdict.ofJudged (items : List (Truth × List String)) : Verdict :=
  .ofSites
    ((items.filter fun i => i.1 == .no).flatMap Prod.snd)
    ((items.filter fun i => i.1 == .unclear).flatMap Prod.snd)

/-- `none` is undetermined. -/
def Truth.ofOption : Option Bool → Truth
  | some b => .ofBool b
  | none => .unclear

namespace Context

/-- Judge every value of a variable on its own. -/
def perValue (ctx : Context) (v : Variable) (check : Value → Option Bool) : Verdict :=
  .ofJudged ((ctx.view.valuesOf v.name).map fun (site, x) => (.ofOption (check x), [site]))

def member (ctx : Context) (v : Variable) (allowed : List String) : Verdict :=
  ctx.perValue v fun x => (v.textOf? x).map fun s => allowed.any fun a => Text.sameLetters a s

/-- A lone expression holds where it is not zero. -/
def arithmetic (ctx : Context) (e : Arithmetic) : Verdict :=
  match e.candidates? ctx.view ctx.limit with
  | none => .plain .unclear
  | some cs =>
    .ofJudged (cs.map fun c =>
      (.ofOption ((c.value.bind Scalar.asInt?).map fun n => n != 0), c.sites))

def comparison (ctx : Context) (left : Arithmetic) (op : Comparison) (right : Arithmetic) :
    Verdict :=
  match left.candidates? ctx.view ctx.limit, right.candidates? ctx.view ctx.limit with
  | some ls, some rs =>
    if ls.length * rs.length > ctx.limit then .plain .unclear
    else .ofJudged (ls.flatMap fun l => rs.map fun r =>
      (op.judgeOption l.value r.value, l.sites ++ r.sites))
  | _, _ => .plain .unclear

/-- The sites of the calls that match one of the methods among the terms. Calls on
subtypes count. -/
def matchingCalls (ctx : Context) (a : Atom) : List String :=
  let matcher : Matcher := ⟨ctx.subtyping, true⟩
  let methods := a.terms.filterMap Term.method?
  (ctx.view.calls.filter fun call => methods.any fun m => matcher.accepts m call.callee).map
    Call.site

/-- Compare the static type of every value with the type among the terms. -/
def typed (ctx : Context) (a : Atom) (check : String → String → Bool) : Verdict :=
  match a.terms.findSome? Term.var?, a.terms.findSome? Term.type? with
  | some v, some type => ctx.perValue v fun x => x.staticType.map fun t => check t type
  | _, _ => .plain .unclear

def valued (ctx : Context) (a : Atom) (check : Value → Option Bool) : Verdict :=
  match a.terms.findSome? Term.var? with
  | some v => ctx.perValue v check
  | none => .plain .unclear

def builtin (ctx : Context) (a : Atom) : Builtin → Verdict
  | .callTo =>
    let sites := ctx.matchingCalls a
    .withSites (.ofBool !sites.isEmpty) sites
  | .noCallTo =>
    let sites := ctx.matchingCalls a
    .withSites (.ofBool sites.isEmpty) sites
  | .neverTypeOf => ctx.typed a fun t type => !ctx.subtyping t type
  | .instanceOf => ctx.typed a ctx.subtyping
  | .length => ctx.valued a fun x => (x.constant?.bind Constant.length?).map fun _ => true
  | .notHardCoded =>
    ctx.valued a fun x =>
      match x.content with
      | .constant _ => some false
      | .object _ => some true
      | .unknown => none

/-- A predicate whose guard does not rule it out. -/
def applies (ctx : Context) (p : Predicate) : Verdict :=
  match p.atom.builtin? with
  | some b =>
    let v := ctx.builtin p.atom b
    if p.atom.negated then { v with truth := v.truth.negate } else v
  | none => ctx.lookup p ctx.view

end Context

namespace Constraint

def evaluate (ctx : Context) : Constraint → Verdict
  | .member v allowed => ctx.member v allowed
  | .arithmetic e => ctx.arithmetic e
  | .compare l op r => ctx.comparison l op r
  | .connect l op r =>
    let left := l.evaluate ctx
    if op.needsRight left.truth then
      let right := r.evaluate ctx
      .withSites (op.combine left.truth right.truth) (left.sites ++ right.sites)
    else .withSites (op.combine left.truth left.truth) left.sites
  | .atom a => ctx.applies ⟨a, none⟩
  | .guarded a g => if (g.evaluate ctx).truth = .no then .holds else ctx.applies ⟨a, some g⟩
  | .throws _ _ => .holds

end Constraint

namespace Predicate

def evaluate (ctx : Context) (p : Predicate) : Verdict := p.toConstraint.evaluate ctx

end Predicate

end Misuse
