import Misuse.Evaluation
import Misuse.Partition
import Misuse.Violation

/-!
# Judging an object

One pass over the constraints of one object. Direct constraints are evaluated,
requirements are looked up; what fails is recorded, what is unclear becomes an advisory,
and nothing keeps a later constraint from being judged. Pending constraints are handed
back.
-/

namespace Misuse

structure ConstraintSettings where
  policy : Policy
  /-- The most combinations of values that are looked at. -/
  maxCombinations : Nat
  deriving DecidableEq, Repr, Inhabited

namespace ConstraintSettings

def default : ConstraintSettings := ⟨.default, Context.defaultCap⟩

def context (s : ConstraintSettings) (subtyping : Subtyping) (lookup : Lookup) (view : View) :
    Context :=
  ⟨view, lookup, subtyping, s.maxCombinations⟩

end ConstraintSettings

structure Judgement where
  violations : List Violation
  /-- The constraints that still wait for a variable. -/
  pending : List Nat
  deriving DecidableEq, Repr, Inhabited

namespace Judgement

def misuses (j : Judgement) : Nat := (j.violations.filter fun v => v.kind.isMisuse).length

end Judgement

namespace Rule

/-- The sites of a verdict, or else the site of the last call. -/
def sitesOrLast (view : View) (v : Verdict) : List String :=
  if v.sites.isEmpty then view.lastSite?.toList else v.sites

/-- The record of a direct constraint, if it does not hold. -/
def directRecord? (r : Rule) (ctx : Context) (c : Constraint) : Option Violation :=
  let v := c.evaluate ctx
  match v.truth with
  | .yes => none
  | .no =>
    some (.constraint r.className ctx.view.object c.display (sitesOrLast ctx.view v))
  | .unclear =>
    some (.impreciseValue r.className ctx.view.object c.display (sitesOrLast ctx.view v))

/-- One member that holds is enough. -/
def requirementTruth (ctx : Context) (q : Requirement) : Truth :=
  let truths := q.members.map fun p => (p.evaluate ctx).truth
  if truths.contains .yes then .yes
  else if truths.contains .unclear then .unclear
  else .no

/-- The record of a requirement, if it is not met. -/
def requiredRecord? (r : Rule) (ctx : Context) (q : Required) : Option Violation :=
  match requirementTruth ctx q.requirement with
  | .yes => none
  | .no =>
    some (.missingPredicate r.className ctx.view.object q.requirement.display q.anchor)
  | .unclear =>
    some (.impreciseValue r.className ctx.view.object q.requirement.display q.anchor.toList)

def directRecords (r : Rule) (ctx : Context) (indices : List Nat) : List Violation :=
  indices.filterMap fun i => (r.constraints[i]?).bind (r.directRecord? ctx)

def requiredRecords (r : Rule) (ctx : Context) (required : List Required) : List Violation :=
  required.filterMap (r.requiredRecord? ctx)

/-- Judge the constraints at the indices. -/
def judgeOnly (r : Rule) (policy : Policy) (ctx : Context) (indices : List Nat) : Judgement :=
  let p := policy.partition r ctx.view indices
  ⟨r.directRecords ctx p.direct ++ r.requiredRecords ctx p.required, p.pending⟩

def judge (r : Rule) (policy : Policy) (ctx : Context) : Judgement :=
  r.judgeOnly policy ctx r.constraintIndices

/-! ## Records one by one -/

/-- Go through items and add what is recorded of each behind the records there are. With the
records comes the number of items that fail. -/
def recordEach {α : Type} (fails : α → Bool) (record? : α → Option Violation) (items : List α)
    (out : List Violation) : Nat × List Violation :=
  items.foldl
    (fun (failed, out) x => (if fails x then failed + 1 else failed, out ++ (record? x).toList))
    (0, out)

/-- Record the direct constraints at the indices; the number is that of the violated ones. -/
def evaluateDirect (r : Rule) (ctx : Context) (indices : List Nat) (out : List Violation) :
    Nat × List Violation :=
  recordEach (fun i => (r.constraints[i]?).any fun c => (c.evaluate ctx).truth == .no)
    (fun i => (r.constraints[i]?).bind (r.directRecord? ctx)) indices out

/-- Record requirements; the number is that of the ones that are missing. -/
def resolveRequired (r : Rule) (ctx : Context) (required : List Required) (out : List Violation) :
    Nat × List Violation :=
  recordEach (fun q => requirementTruth ctx q.requirement == .no) (r.requiredRecord? ctx) required
    out

theorem recordEach_eq {α : Type} (fails : α → Bool) (record? : α → Option Violation)
    (items : List α) (out : List Violation) :
    recordEach fails record? items out =
      (items.countP fails, out ++ items.filterMap record?) := by
  have step (items : List α) (failed : Nat) (out : List Violation) :
      items.foldl (fun (failed, out) x =>
        (if fails x then failed + 1 else failed, out ++ (record? x).toList)) (failed, out) =
        (failed + items.countP fails, out ++ items.filterMap record?) := by
    induction items generalizing failed out with
    | nil => simp
    | cons x items ih =>
      rw [List.foldl_cons, ih, List.countP_cons]
      cases fails x <;> cases hx : record? x <;> simp [hx] <;> omega
  rw [recordEach, step, Nat.zero_add]

end Rule

end Misuse
