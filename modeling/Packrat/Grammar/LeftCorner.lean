import Std.Data.HashMap
import Packrat.Rules.Reach

/-! Which rules a rule can begin with.

Applying a rule applies its first calls at the same position: every alternative of a
choice, what is optional or repeated, and of a sequence the rules up to and with the
first that cannot match the empty text. The left corners of a rule are what first
calls lead to, in one step or more, and a rule is left-recursive when it is a left
corner of itself. -/
namespace Packrat

/-- The front of a list up to and with the first member that fails `p`. -/
def uptoFirstNot {α : Type} (p : α → Bool) : List α → List α
  | [] => []
  | a :: rest => if p a then a :: uptoFirstNot p rest else [a]

/-- The rules that a rule applies where it is applied itself. -/
def Rule.firstCalls (nullable : Std.HashSet RuleId) (r : Rule) : List RuleId :=
  match r.body with
  | .choice rules => rules
  | .sequence rules => uptoFirstNot nullable.contains rules
  | .optional rule | .repetition rule => [rule]
  | .literal _ | .pattern _ | .epsilon | .endOfInput | .reference _ => []

/-- The left corners of each of some rules. -/
structure LeftCorners where
  corners : Std.HashMap RuleId (Std.HashSet RuleId)

namespace LeftCorners

/-- Whether applying `a` may apply `b` at the same position. -/
def couldStartWith (c : LeftCorners) (a b : RuleId) : Bool := (c.corners[a]?).any (·.contains b)

def isLeftRecursive (c : LeftCorners) (rule : RuleId) : Bool := c.couldStartWith rule rule

end LeftCorners

namespace RuleGraph

def firstCalls (g : RuleGraph) (nullable : Std.HashSet RuleId) (id : RuleId) :
    Except RuleError (List RuleId) :=
  (·.firstCalls nullable) <$> g.rule id

/-- The left corners of one rule. -/
def cornersOf (g : RuleGraph) (nullable : Std.HashSet RuleId) (id : RuleId) :
    Except RuleError (Std.HashSet RuleId) := do
  let calls ← g.firstCalls nullable id
  return .ofList (← (g.walk (·.firstCalls nullable) calls).all)

/-- The left corners of the listed rules. -/
def leftCorners (g : RuleGraph) (nullable : Std.HashSet RuleId) (rules : List RuleId) :
    Except RuleError LeftCorners := do
  let corners ← rules.foldlM (fun corners id => return corners.insert id (← g.cornersOf nullable id)) ∅
  return ⟨corners⟩

end RuleGraph

end Packrat
