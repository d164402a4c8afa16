import Packrat.Text.Buffer
import Packrat.Recognition.Session

/-! Recognition: applying rules to positions of a buffer.

Applying a rule looks for a remembered answer first and evaluates the rule's body
otherwise. A rule that is applied again where it is under way answers that it does
not match. That is the seed of its cycle; if the first application then matches
after all, the seed grows: the body is evaluated again on the answer so far, for as
long as the match gets longer.

Bodies apply rules and applications evaluate bodies through an argument, and `apply` ties the
knot with a bound on the depth of applications. Loops are bounded by the length of the
buffer: each item of a repetition and each round of growth consumes more of it. -/
namespace Packrat

/-- What is recognised, and how. -/
structure Recognizer where
  graph : RuleGraph
  buffer : Buffer
  /-- The most steps that may be taken. -/
  stepLimit : Option Nat := none
  /-- Reports each evaluation of a body. -/
  trace : Bool := false

/-- Why a recognition ends without an answer. -/
inductive Stop where
  | error (e : EvalError)
  /-- A rule refers to a number that belongs to no rule. -/
  | dangling (rule : RuleId)
  /-- A bound on depth or loops was too low. -/
  | exhausted
deriving DecidableEq, Repr

/-- A step of a recognition. What it did to the session stays done when it stops. -/
abbrev Recognition := ExceptT Stop (StateM Session)

namespace Recognizer

/-- How much of the input is shown in front of a body. -/
def previewLength : Nat := 40

/-- The number of bytes from a position to the end of the buffer. -/
def remaining (r : Recognizer) (pos : Nat) : Nat := r.buffer.size - pos

def note (n : Note) : Recognition Unit := modify (·.record (.note n))

def record (e : Event) : Recognition Unit := modify (·.record e)

/-- Goes on when a step has ended, in whatever way. -/
def outcomeOf {α : Type} (x : Recognition α) : Recognition (Except Stop α) := fun s =>
  let (outcome, s) := x s
  (.ok outcome, s)

/-- The rule of a number, or the end of the recognition. -/
def orStop {α : Type} : Except RuleError α → RuleId → Recognition α
  | .ok a, _ => return a
  | .error (.dangling id), _ => throw (.dangling id)
  | .error _, id => throw (.dangling id)

/-! ### Bodies

Each body is evaluated through `rec`, which applies a rule at a position. -/
section Bodies
variable (rec : RuleId → Nat → Recognition Answer)

/-- The answers of rules one after the other and the offset past them, if all match. -/
def matchEach : List RuleId → Nat → Recognition (Option (List Answer × Nat))
  | [], pos => return some ([], pos)
  | rule :: rest, pos => do
    let answer ← rec rule pos
    if answer.matched then
      let more ← matchEach rest answer.stop
      return more.map fun (answers, stop) => (answer :: answers, stop)
    else return none

/-- The answer of the first rule that matches. -/
def matchFirst (pos : Nat) : List RuleId → Recognition (Option Answer)
  | [] => return none
  | rule :: rest => do
    let answer ← rec rule pos
    if answer.matched then return some answer else matchFirst pos rest

/-- The answers of a rule as often as it matches something, the last one first in front of `items`,
and the offset past them. -/
def matchMany (rule : RuleId) : Nat → List Answer → Nat → Recognition (List Answer × Nat)
  | 0, _, _ => throw .exhausted
  | n + 1, items, pos => do
    let answer ← rec rule pos
    if answer.matched && answer.length != 0 then matchMany rule n (answer :: items) answer.stop
    else return (items, pos)

variable (r : Recognizer)

/-- What a rule's body answers at a position. -/
def body (rule : RuleId) (pos : Nat) : Recognition Answer := do
  let found ← orStop (r.graph.rule rule) rule
  match found.body with
  | .literal text =>
    if (r.buffer.suffix? pos).any text.toList.isPrefixOf then return .node rule pos text.utf8ByteSize []
    else return .fail rule pos
  | .pattern p =>
    match (r.buffer.suffix? pos).bind p.matchLength with
    | some 0 => throw (.error (.emptyMatch rule p.source pos))
    | some length => return .node rule pos length []
    | none => return .fail rule pos
  | .sequence rules =>
    if rules.isEmpty then return .fail rule pos
    match ← matchEach rec rules pos with
    | some (answers, stop) => return .node rule pos (stop - pos) answers
    | none => return .fail rule pos
  | .choice rules =>
    match ← matchFirst rec pos rules with
    | some answer => return .node rule pos answer.length [answer]
    | none => return .fail rule pos
  | .optional child =>
    let answer ← rec child pos
    if answer.matched then return .node rule pos answer.length [answer]
    else return .node rule pos 0 []
  | .repetition child =>
    let (items, stop) ← matchMany rec child (r.remaining pos + 1) [] pos
    return .node rule pos (stop - pos) items.reverse
  | .epsilon => return .node rule pos 0 []
  | .endOfInput => if pos = r.buffer.size then return .node rule pos 0 [] else return .fail rule pos
  | .reference _ => throw (.error (.unresolvedReference rule))

/-- How an evaluation ended, as it is reported. -/
def exitNotes : Except Stop Answer → List Note
  | .ok answer => [.left answer.matched answer.length]
  | .error (.error e) => [.leftWith e]
  | .error _ => []

/-- Evaluates a body, and reports it if evaluations are traced. -/
def tracedBody (rule : RuleId) (pos : Nat) : Recognition Answer := do
  if r.trace then
    let span := Span.apply (← orStop (r.graph.display rule) rule) pos
    record (.opened span)
    note (.entered (String.ofList (r.buffer.preview previewLength pos)))
    let outcome ← outcomeOf (body rec r rule pos)
    (exitNotes outcome).forM note
    record (.closed span)
    ExceptT.mk (pure outcome)
  else body rec r rule pos

end Bodies

/-! ### Applications

Bodies are evaluated through `eval`. -/
section Applications
variable (eval : RuleId → Nat → Recognition Answer) (r : Recognizer)

/-- What rounds of growth have come to. -/
structure Growth where
  /-- The longest answer. -/
  best : Answer
  /-- What the round that brought it has remembered at the position. -/
  committed : List (RuleId × Entry) := []
  /-- How many rounds brought a longer answer. -/
  rounds : Nat := 0

/-- At most so many rounds, until one brings no longer answer. -/
def growRounds (id : HeadId) (rule : RuleId) (pos : Nat) : Nat → Growth → Recognition Growth
  | 0, _ => throw .exhausted
  | n + 1, growth => do
    modify (·.startRound id rule pos)
    let answer ← eval rule pos
    if answer.improvesOn growth.best then
      modify (·.setEntry rule pos (.final answer))
      let committed := (← get).writtenEntries id pos
      growRounds id rule pos n { best := answer, committed, rounds := growth.rounds + 1 }
    else return growth

/-- Ends a growth. What its last good round remembered is remembered for good. -/
def endGrow (id : HeadId) (rule : RuleId) (pos : Nat) (outer : Option HeadId)
    (outcome : Except Stop Growth) : Recognition Answer := do
  modify (·.endGrowth id rule pos outer)
  let growth ← ExceptT.mk (pure outcome)
  modify fun s => growth.committed.foldl (fun s (other, e) => s.remember other pos e) s
  modify (·.remember rule pos (.final growth.best))
  let found ← orStop (r.graph.rule rule) rule
  note (.seedGrown found.name pos growth.rounds growth.best.length)
  return growth.best

/-- Grows the seed of a head. -/
def grow (id : HeadId) (rule : RuleId) (pos : Nat) (seed : Answer) : Recognition Answer := do
  let outer := (← get).growing[pos]?
  modify (·.startGrowth id pos)
  let outcome ← outcomeOf (growRounds eval id rule pos (r.remaining pos + 1) { best := seed })
  endGrow r id rule pos outer outcome

/-- Leaves the frame of a rule when its body has been evaluated, and grows the answer of an anchor. -/
def leaveWith (rule : RuleId) (pos : Nat) (outcome : Except Stop Answer) : Recognition Answer := do
  let top := (← get).top
  modify (·.leave)
  match outcome, top with
  | .error stop, top =>
    modify (·.dropEntry rule pos)
    if let some (id, true) := top then modify (·.release id)
    throw stop
  | .ok answer, none =>
    modify (·.remember rule pos (.final answer))
    return answer
  | .ok answer, some (id, false) =>
    modify (·.remember rule pos (.involved answer id))
    return answer
  | .ok answer, some (id, true) =>
    modify (·.remember rule pos (.final answer))
    let outcome ←
      if answer.matched then outcomeOf (grow eval r id rule pos answer) else pure (.ok answer)
    modify (·.release id)
    ExceptT.mk (pure outcome)

/-- Applies a rule of which nothing is remembered at the position. -/
def applyFresh (rule : RuleId) (pos : Nat) : Recognition Answer := do
  modify (·.enter rule pos)
  let outcome ← outcomeOf (eval rule pos)
  leaveWith eval r rule pos outcome

/-- Counts a step, which must not be one too many. -/
def tick : Recognition Unit := do
  modify fun s => { s with steps := s.steps + 1 }
  match r.stepLimit with
  | some limit => if limit < (← get).steps then throw (.error (.stepLimit limit))
  | none => return

/-- Applies a rule at a position. -/
def step (rule : RuleId) (pos : Nat) : Recognition Answer := do
  tick r
  if (← get).isEligible rule pos then
    modify (·.spend rule pos)
    let answer ← eval rule pos
    modify (·.remember rule pos (.final answer))
    return answer
  match (← get).remembered? rule pos with
  | some (.final answer) => return answer
  | some (.inProgress frame) =>
    modify (·.reenter frame)
    return .fail rule pos
  | some (.involved seed id) =>
    if (← get).anchorUnderWay id then
      modify (·.involve id)
      return seed
    else if (← get).growsAt pos id then return seed
    else
      -- The head has finished without coming back to this entry.
      modify (·.dropEntry rule pos)
      applyFresh eval r rule pos
  | none => applyFresh eval r rule pos

end Applications

/-- Applies a rule at a position, with so many applications inside of each other at most. -/
def applyWithin (r : Recognizer) : Nat → RuleId → Nat → Recognition Answer
  | 0, _, _ => throw .exhausted
  | depth + 1, rule, pos => step (tracedBody (applyWithin r depth) r) r rule pos

/-- More applications than this are never inside of each other: at each position a rule is under way
or growing at most once, and evaluated anew at most once for each of those. -/
def depthBound (r : Recognizer) : Nat :=
  let rules := r.graph.size + 2
  (r.buffer.size + 2) * (rules * rules * rules)

/-- Applies a rule at a position. -/
def apply (r : Recognizer) (rule : RuleId) (pos : Nat) : Recognition Answer :=
  if r.graph.contains rule then r.applyWithin r.depthBound rule pos
  else throw (.error (.unknownRule rule))

/-- Applies a rule at the start of the buffer in a session of its own. -/
def evaluate (r : Recognizer) (rule : RuleId) : Except Stop Answer × Session :=
  let span := Span.evaluate rule r.buffer.size
  let (outcome, s) := (do record (.opened span); r.apply rule 0 : Recognition Answer).run {}
  let s := match outcome with
    | .ok answer => s.record (.note (.evaluationFinished answer.matched answer.length s.steps))
    | .error _ => s
  (outcome, s.record (.closed span))

end Recognizer

end Packrat
