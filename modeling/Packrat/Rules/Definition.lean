import Packrat.Rules.Basic

/-! Defining rules.

Rules are defined bottom up, each with the numbers of the rules that it refers to. For
a cycle a placeholder is defined first, used in the place of the rule that does not
yet exist, and bound to it later. A definition that fails defines nothing. -/
namespace Packrat

/-- A step that defines rules. -/
abbrev Definition := StateT RuleGraph (Except RuleError)

namespace Definition

/-- Defines a rule with the flags that its body has by itself. -/
def define (name : String) (body : RuleBody) : Definition RuleId := modifyGet fun g =>
  let (g, id) := g.add { name, body }
  (id, g)

/-- Named after its text. -/
def literal (text : String) : Definition RuleId := define text (.literal text)

def pattern (source : String) : Definition RuleId := do
  match Pattern.ofSource source with
  | .ok p => define s!"re[{source}]" (.pattern p)
  | .error e => throw (.pattern e)

def sequence (name : String) (rules : List RuleId) : Definition RuleId := define name (.sequence rules)

def choice (name : String) (rules : List RuleId) : Definition RuleId := define name (.choice rules)

/-- Named after the rule that is optional. -/
def optional (rule : RuleId) : Definition RuleId := do
  let r ← (← get).rule rule
  define (r.name ++ "?") (.optional rule)

def repetition (name : String) (rule : RuleId) : Definition RuleId := define name (.repetition rule)

/-- One or more times: the rule, followed by a repetition of it. -/
def plus (name : String) (rule : RuleId) : Definition RuleId := do
  let rest ← repetition (name ++ "*") rule
  sequence name [rule, rest]

def epsilon (name : String) : Definition RuleId := define name .epsilon

def endOfInput (name : String) : Definition RuleId := define name .endOfInput

/-- A placeholder that is not bound yet. -/
def placeholder : Definition RuleId := define "<forward>" (.reference none)

/-- Binds a placeholder, which takes the name of its target. -/
def bind (placeholder target : RuleId) : Definition Unit := do
  let g ← get
  let name := (← g.rule target).name
  let r ← g.rule placeholder
  match r.body with
  | .reference none =>
    set (g.modify placeholder fun r => { r with name, body := .reference (some target) })
  | .reference (some _) => throw (.alreadyBound placeholder)
  | _ => throw (.notAReference placeholder r.name)

end Definition

end Packrat
