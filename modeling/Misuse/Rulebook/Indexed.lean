import Misuse.Positions
import Misuse.Rulebook

/-!
# Rulebooks with positions

The rule for a type is found by its position. A rule that is accepted takes the position of the
earlier rule for its type, or else the one at the end. When accepted rules are checked once more,
those that stay move up, and their positions are entered anew.
-/

namespace Misuse

/-- Enter the rules of a list in order, by their types. -/
def Positions.ofRules (rules : List Rule) : Positions :=
  rules.zipIdx.foldl (fun p (r, i) => p.enter r.className i) []

namespace Rulebook

structure Indexed extends Rulebook where
  positions : Positions
  deriving DecidableEq, Repr, Inhabited

namespace Indexed

def empty : Indexed := ⟨.empty, []⟩

/-- Check a rule and add it. The answer is the rule, or why it is not accepted. -/
def insert (b : Indexed) (strict : Bool) (rule : Rule) : Indexed × Except Defect Rule :=
  match rule.check strict with
  | .error defect => ({ b with rejected := b.rejected ++ [defect] }, .error defect)
  | .ok _ =>
    match b.positions.get? rule.className with
    | some i => ({ b with rules := b.rules.set i rule }, .ok rule)
    | none =>
      ({ b with
          rules := b.rules ++ [rule]
          positions := b.positions.enter rule.className b.rules.length }, .ok rule)

/-- Check the accepted rules once more. The answer is how many of them have become defects. -/
def revalidate (b : Indexed) (strict : Bool) : Indexed × Nat :=
  let kept := b.toRulebook.revalidate strict
  (⟨kept, .ofRules kept.rules⟩, b.rules.length - kept.rules.length)

def get? (b : Indexed) (className : String) : Option Rule :=
  (b.positions.get? className).bind fun i => b.rules[i]?

/-- Take over the accepted rules of another rulebook, then its defects. -/
def absorb (b : Indexed) (strict : Bool) (other : Rulebook) : Indexed :=
  let b := other.rules.foldl (fun b r => (b.insert strict r).1) b
  { b with rejected := b.rejected ++ other.rejected }

end Indexed

end Rulebook

end Misuse
