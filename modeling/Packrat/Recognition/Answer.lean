import Packrat.Rules.Basic

/-! Answers: what applying a rule at a position came to. -/
namespace Packrat

structure Answer where
  rule : RuleId
  start : Nat
  matched : Bool
  /-- The number of bytes matched, zero without a match. -/
  length : Nat
  /-- The answers that the match is made of, in order. -/
  children : List Answer

namespace Answer

def fail (rule : RuleId) (start : Nat) : Answer := ⟨rule, start, false, 0, []⟩

/-- A match made of these. -/
def node (rule : RuleId) (start length : Nat) (children : List Answer) : Answer :=
  ⟨rule, start, true, length, children⟩

/-- The offset just past the match. -/
def stop (a : Answer) : Nat := a.start + a.length

/-- Whether an answer is a longer match than another one, or a match in place of none. -/
def improvesOn (a b : Answer) : Bool := a.matched && (!b.matched || b.length < a.length)

end Answer

inductive EvalError where
  /-- A pattern matched nothing at a place in the buffer. -/
  | emptyMatch (rule : RuleId) (source : String) (pos : Nat)
  | unresolvedReference (rule : RuleId)
  | unknownRule (rule : RuleId)
  | stepLimit (limit : Nat)
deriving DecidableEq, Repr

namespace EvalError

def message : EvalError → String
  | emptyMatch rule source pos => s!"pattern `{source}` ({rule}) matched the empty string at offset {pos}"
  | unresolvedReference rule => s!"rule {rule} is an unresolved forward reference"
  | unknownRule rule => s!"rule {rule} does not belong to the evaluated grammar"
  | stepLimit limit => s!"step limit of {limit} rule applications exceeded"

/-- The grammar itself is at fault. -/
def isDefinitionError : EvalError → Bool
  | emptyMatch .. => true
  | _ => false

/-- Something was to be evaluated that cannot be. -/
def isMisuse : EvalError → Bool
  | unresolvedReference _ | unknownRule _ => true
  | _ => false

end EvalError

end Packrat
