import Packrat.Rules.Reach

/-! Which rules can match the empty text.

The set starts from the rules that are flagged already and grows in passes over the
listed rules until a pass adds nothing. A rule that is not listed counts by its flag
alone. The end of the buffer is left out: it consumes nothing, but it does not match
everywhere. -/
namespace Packrat

structure Nullability where
  rules : Std.HashSet RuleId
  /-- How many passes it took, the last one included. -/
  passes : Nat

namespace RuleGraph

def isNullable (g : RuleGraph) (known : Std.HashSet RuleId) (id : RuleId) : Except RuleError Bool :=
  if known.contains id then .ok true else (·.flags.nullable) <$> g.rule id

/-- Whether a body can match the empty text, given rules known to. An empty sequence never matches. -/
def bodyNullable (g : RuleGraph) (known : Std.HashSet RuleId) : RuleBody → Except RuleError Bool
  | .choice rules => rules.anyM (g.isNullable known)
  | .sequence rules => if rules.isEmpty then .ok false else rules.allM (g.isNullable known)
  | .optional _ | .repetition _ | .epsilon => .ok true
  | .literal text => .ok text.isEmpty
  | .pattern _ | .endOfInput | .reference _ => .ok false

/-- One pass, in which what is found counts for the rules that follow. -/
def nullablePass (g : RuleGraph) (known : Std.HashSet RuleId) :
    List RuleId → Except RuleError (Std.HashSet RuleId)
  | [] => .ok known
  | id :: rest => do
    if known.contains id then g.nullablePass known rest
    else if ← g.bodyNullable known (← g.rule id).body then g.nullablePass (known.insert id) rest
    else g.nullablePass known rest

/-- At most so many passes, until one adds nothing. -/
def nullablePasses (g : RuleGraph) (rules : List RuleId) (known : Std.HashSet RuleId) :
    Nat → Except RuleError Nullability
  | 0 => .ok ⟨known, 0⟩
  | n + 1 => do
    let found ← g.nullablePass known rules
    if found.size = known.size then return ⟨found, 1⟩
    let result ← g.nullablePasses rules found n
    return { result with passes := result.passes + 1 }

/-- The listed rules that can match the empty text. A pass that is not the last one adds a rule, so
there is at most one pass more than there are rules. -/
def nullability (g : RuleGraph) (rules : List RuleId) : Except RuleError Nullability := do
  let flagged ← rules.filterM fun id => return (← g.rule id).flags.nullable
  g.nullablePasses rules (.ofList flagged) (rules.length + 1)

end RuleGraph

end Packrat
