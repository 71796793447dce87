import Misuse.Constraint.Basic
import Misuse.Distinct

/-!
# Three-valued truth

What could not be determined is neither true nor false. The connectives are the strong
ones of Kleene; the right operand is not needed where the left one decides
(`Connective.combine_of_not_needsRight`).
-/

namespace Misuse

inductive Truth where
  | yes
  | no
  | unclear
  deriving DecidableEq, Repr, Inhabited

namespace Truth

def ofBool (b : Bool) : Truth := if b then .yes else .no

theorem ofBool_eq_no_iff {b : Bool} : ofBool b = .no ↔ b = false := by
  cases b <;> simp [ofBool]

theorem ofBool_ne_unclear (b : Bool) : ofBool b ≠ .unclear := by
  cases b <;> simp [ofBool]

def display : Truth → String
  | .yes => "true"
  | .no => "false"
  | .unclear => "imprecise"

def negate : Truth → Truth
  | .yes => .no
  | .no => .yes
  | .unclear => .unclear

def and : Truth → Truth → Truth
  | .no, _ | _, .no => .no
  | .yes, .yes => .yes
  | _, _ => .unclear

def or : Truth → Truth → Truth
  | .yes, _ | _, .yes => .yes
  | .no, .no => .no
  | _, _ => .unclear

def implies (a b : Truth) : Truth := or a.negate b

/-- All of them hold. -/
def all : List Truth → Truth
  | [] => .yes
  | t :: ts => t.and (all ts)

end Truth

namespace Connective

def combine : Connective → Truth → Truth → Truth
  | .and => Truth.and
  | .or => Truth.or
  | .implies => Truth.implies

/-- The left operand leaves the result open. -/
def needsRight : Connective → Truth → Bool
  | .and, t => t != .no
  | .or, t => t != .yes
  | .implies, t => t != .no

theorem combine_of_not_needsRight {op : Connective} {t : Truth}
    (h : op.needsRight t = false) (u v : Truth) : op.combine t u = op.combine t v := by
  cases op <;> cases t <;> simp_all [needsRight, combine, Truth.and, Truth.or, Truth.implies,
    Truth.negate]

end Connective

/-- A truth value with the call sites that decided it: those of the offending values if it
is false, those of the undetermined ones if it is unclear. -/
structure Verdict where
  truth : Truth
  sites : List String
  deriving DecidableEq, Repr, Inhabited

namespace Verdict

def plain (truth : Truth) : Verdict := ⟨truth, []⟩

def holds : Verdict := plain .yes

/-- Each site is listed once. -/
def withSites (truth : Truth) (sites : List String) : Verdict := ⟨truth, distinct sites⟩

/-- The verdict over values of which some fail and some are undetermined. -/
def ofSites (failing unclear : List String) : Verdict :=
  if !failing.isEmpty then withSites .no failing
  else if !unclear.isEmpty then withSites .unclear unclear
  else holds

end Verdict

end Misuse
