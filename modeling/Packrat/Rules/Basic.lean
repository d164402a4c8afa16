import Packrat.Pattern

/-! Rules and the graph that they form.

A graph keeps its rules numbered in the order of definition, and a rule refers to
others by number, so rules may refer to each other in cycles. A number need not
belong to a rule of the graph; whoever looks such a number up gets the error
`dangling`. -/
namespace Packrat

structure RuleId where
  index : Nat
deriving DecidableEq, Hashable, Repr

instance : ToString RuleId := ⟨fun id => s!"RuleId({id.index})"⟩

/-- What is known of a rule. Flags are only ever added. -/
structure RuleFlags where
  /-- The rule can match the empty text. -/
  nullable : Bool := false
  /-- The rule can be applied again where it was applied, with nothing consumed between. -/
  leftRecursive : Bool := false
deriving DecidableEq, Repr

instance : Union RuleFlags where
  union f g := ⟨f.nullable || g.nullable, f.leftRecursive || g.leftRecursive⟩

/-- What a rule matches. -/
inductive RuleBody where
  /-- Exactly this text. -/
  | literal (text : String)
  | pattern (p : Pattern)
  /-- All of the rules, each where the one before ends. -/
  | sequence (rules : List RuleId)
  /-- The first of the rules that matches. -/
  | choice (rules : List RuleId)
  /-- The rule, or nothing. -/
  | optional (rule : RuleId)
  /-- The rule as often as it matches something, one after the other. -/
  | repetition (rule : RuleId)
  /-- Nothing. -/
  | epsilon
  /-- The end of the buffer. -/
  | endOfInput
  /-- A placeholder for the rule that it is bound to. -/
  | reference (target : Option RuleId)
deriving DecidableEq

namespace RuleBody

/-- The rules that a body refers to, in order. -/
def children : RuleBody → List RuleId
  | sequence rules | choice rules => rules
  | optional rule | repetition rule => [rule]
  | reference target => target.toList
  | literal _ | pattern _ | epsilon | endOfInput => []

/-- The body with other rules in the places of those that it refers to. -/
def withChildren : RuleBody → List RuleId → RuleBody
  | sequence _, rules => sequence rules
  | choice _, rules => choice rules
  | optional _, [rule] => optional rule
  | repetition _, [rule] => repetition rule
  | reference (some _), [rule] => reference (some rule)
  | b, _ => b

def isReference : RuleBody → Bool
  | reference _ => true
  | _ => false

/-- What holds of a body whatever it refers to: these match the empty text if nothing else. -/
def intrinsicFlags : RuleBody → RuleFlags
  | optional _ | repetition _ | epsilon => { nullable := true }
  | literal text => { nullable := text.isEmpty }
  | pattern _ | sequence _ | choice _ | endOfInput | reference _ => {}

end RuleBody

structure Rule where
  /-- A label; several rules may share one. -/
  name : String
  body : RuleBody
  flags : RuleFlags := body.intrinsicFlags
deriving DecidableEq

structure RuleGraph where
  rules : Array Rule := #[]
deriving DecidableEq

inductive RuleError where
  /-- The number belongs to no rule of the graph. -/
  | dangling (rule : RuleId)
  | pattern (e : PatternError)
  /-- Only a placeholder can be bound. -/
  | notAReference (rule : RuleId) (name : String)
  | alreadyBound (rule : RuleId)
  | unboundReference (rule : RuleId)
  /-- The placeholder is bound, through others, to itself. -/
  | referenceCycle (rule : RuleId)
deriving DecidableEq, Repr

def RuleError.message : RuleError → String
  | dangling rule => s!"rule {rule} is not defined"
  | pattern e => e.message
  | notAReference rule name => s!"rule {rule} (`{name}`) is not a forward reference"
  | alreadyBound rule => s!"forward reference {rule} is already bound"
  | unboundReference rule => s!"forward reference {rule} was never bound"
  | referenceCycle rule => s!"forward reference {rule} resolves to itself"

namespace RuleGraph

def size (g : RuleGraph) : Nat := g.rules.size

def contains (g : RuleGraph) (id : RuleId) : Bool := id.index < g.size

def rule? (g : RuleGraph) (id : RuleId) : Option Rule := g.rules[id.index]?

def rule (g : RuleGraph) (id : RuleId) : Except RuleError Rule :=
  match g.rule? id with
  | some r => .ok r
  | none => .error (.dangling id)

/-- All numbers of rules, in order. -/
def ids (g : RuleGraph) : List RuleId := (List.range g.size).map RuleId.mk

/-- Adds a rule, whose number is the next one. -/
def add (g : RuleGraph) (r : Rule) : RuleGraph × RuleId := (⟨g.rules.push r⟩, ⟨g.size⟩)

def modify (g : RuleGraph) (id : RuleId) (f : Rule → Rule) : RuleGraph :=
  ⟨g.rules.modify id.index f⟩

def addFlags (g : RuleGraph) (id : RuleId) (flags : RuleFlags) : RuleGraph :=
  g.modify id fun r => { r with flags := r.flags ∪ flags }

/-- The names of rules, with a separator between two. -/
def joinNames (g : RuleGraph) (separator : String) (rules : List RuleId) :
    Except RuleError String := do
  let names ← rules.mapM fun id => Rule.name <$> g.rule id
  return separator.intercalate names

/-- A rule in the notation of grammars, such as `R[Ra|b]` for a choice. What it refers to is given
by name. -/
def display (g : RuleGraph) (id : RuleId) : Except RuleError String := do
  let r ← g.rule id
  match r.body with
  | .literal _ => return r.name
  | .pattern p => return s!"re[{p.source}]"
  | .sequence rules =>
    let names ← g.joinNames "," rules
    return s!"{r.name}[{names}]"
  | .choice rules =>
    let names ← g.joinNames "|" rules
    return s!"{r.name}[{names}]"
  | .optional rule => return (← g.rule rule).name ++ "?"
  | .repetition rule => return (← g.rule rule).name ++ "*"
  | .epsilon => return "<EPS>"
  | .endOfInput => return "<EOF>"
  | .reference (some target) => return "&" ++ (← g.rule target).name
  | .reference none => return "&?"

end RuleGraph

end Packrat
