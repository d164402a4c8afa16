import Packrat.Rules.Binding
import Packrat.Grammar.Nullable
import Packrat.Grammar.LeftCorner

/-! Grammars: the rules of a graph that some roots lead to.

Registering roots resolves the placeholders that they lead to and records every rule
found. Analysis flags the recorded rules and closes the grammar: from then on nothing
is registered and nothing changes. -/
namespace Packrat

/-- What is found out when a grammar is closed. -/
structure Analysis where
  nullability : Nullability
  leftCorners : LeftCorners

structure Grammar where
  graph : RuleGraph
  /-- The registered roots, each once. -/
  roots : List RuleId := []
  /-- The registered rules in the order in which they were found, each once. -/
  rules : List RuleId := []
  /-- The same rules, to look one up. -/
  registered : Std.HashSet RuleId := ∅
  /-- The first rule that was registered with each name. -/
  byName : Std.HashMap String RuleId := ∅
  analysis : Option Analysis := none

inductive GrammarError where
  | finalized
  | unknownRule (rule : RuleId)
  /-- A placeholder could not be resolved. -/
  | unresolved (e : RuleError)
deriving DecidableEq, Repr

def GrammarError.message : GrammarError → String
  | finalized => "grammar is finalized; no more rules can be registered"
  | unknownRule rule => s!"rule {rule} does not belong to this grammar"
  | unresolved e => e.message

/-- Appends those that are not in the list yet. -/
def appendNew {α : Type} [DecidableEq α] (known found : List α) : List α :=
  found.foldl (fun l a => if a ∈ l then l else l ++ [a]) known

namespace Grammar

def isFinalized (g : Grammar) : Bool := g.analysis.isSome

def nameOf (g : Grammar) (id : RuleId) : Option String := (g.graph.rule? id).map (·.name)

/-- Records a rule, unless it is registered already. -/
def enroll (g : Grammar) (id : RuleId) : Grammar :=
  if g.registered.contains id then g
  else
    { g with
      rules := g.rules ++ [id]
      registered := g.registered.insert id
      byName := match g.nameOf id with
        | some name => if g.byName.contains name then g.byName else g.byName.insert name id
        | none => g.byName }

/-- Resolves the placeholders that the roots lead to, records every rule found, and gives the roots
as resolved. -/
def register (g : Grammar) (roots : List RuleId) : Except GrammarError (List RuleId) × Grammar :=
  if g.isFinalized then (.error .finalized, g)
  else
    match roots.find? (!g.graph.contains ·) with
    | some rule => (.error (.unknownRule rule), g)
    | none =>
      match g.graph.resolve roots with
      | (.error e, graph) => (.error (.unresolved e), { g with graph })
      | (.ok roots, graph) =>
        match graph.reachable roots with
        | .error e => (.error (.unresolved e), { g with graph })
        | .ok found => (.ok roots, found.foldl enroll { g with graph, roots := appendNew g.roots roots })

/-- Flags the registered rules and closes the grammar; a closed grammar stays as it is. -/
def analyze (g : Grammar) : Except RuleError Grammar := do
  if g.isFinalized then return g
  let nullability ← g.graph.nullability g.rules
  let graph := (g.rules.filter nullability.rules.contains).foldl
    (·.addFlags · { nullable := true }) g.graph
  let leftCorners ← graph.leftCorners nullability.rules g.rules
  let graph := (g.rules.filter leftCorners.isLeftRecursive).foldl
    (·.addFlags · { leftRecursive := true }) graph
  return { g with graph, analysis := some { nullability, leftCorners } }

def contains (g : Grammar) (id : RuleId) : Bool := g.registered.contains id

/-- The first registered rule with a name. -/
def get? (g : Grammar) (name : String) : Option RuleId := g.byName[name]?

/-- The names of the registered rules, each once and in the order of code points. -/
def names (g : Grammar) : List String := g.byName.keys.mergeSort fun a b => decide (a ≤ b)

/-- Whether applying `a` may apply `b` at the same position. Nothing does before analysis. -/
def couldStartWith (g : Grammar) (a b : RuleId) : Bool :=
  g.analysis.any (·.leftCorners.couldStartWith a b)

def flagged (g : Grammar) (flag : RuleFlags → Bool) : List RuleId :=
  g.rules.filter fun id => (g.graph.rule? id).any (flag ·.flags)

/-- The registered rules that are flagged nullable, in the order of finding. -/
def nullableRules (g : Grammar) : List RuleId := g.flagged (·.nullable)

/-- The registered rules that are flagged left-recursive, in the order of finding. -/
def leftRecursiveRules (g : Grammar) : List RuleId := g.flagged (·.leftRecursive)

end Grammar

end Packrat
