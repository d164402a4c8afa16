import Packrat.Recognition.Answer
import Packrat.Grammar.Basic

/-! What is reported of the work done: spans, which are opened and closed around a piece
of work, and notes in between. Each has a name and fields by which it is shown. -/
namespace Packrat

inductive Span where
  | register (roots : Nat)
  | analyze (rules : Nat)
  | evaluate (rule : RuleId) (length : Nat)
  /-- The evaluation of a rule's body, where the rule is given as it is displayed. -/
  | apply (rule : String) (pos : Nat)
deriving DecidableEq, Repr

inductive Note where
  | rulesRegistered (added total : Nat)
  | nullabilityReached (passes nullable : Nat)
  | grammarAnalyzed (nullable : Nat) (leftRecursive : List String)
  | evaluationFinished (matched : Bool) (length steps : Nat)
  | seedGrown (rule : String) (pos rounds length : Nat)
  /-- A body is about to be evaluated in front of this input. -/
  | entered (input : String)
  | left (matched : Bool) (length : Nat)
  | leftWith (e : EvalError)
deriving DecidableEq, Repr

inductive Event where
  | opened (s : Span)
  | closed (s : Span)
  | note (n : Note)
deriving DecidableEq, Repr

inductive FieldValue where
  | number (n : Nat)
  | flag (b : Bool)
  | text (s : String)
deriving DecidableEq, Repr

def Span.name : Span → String
  | register _ => "register"
  | analyze _ => "analyze"
  | evaluate .. => "evaluate"
  | apply .. => "apply"

def Span.fields : Span → List (String × FieldValue)
  | register roots => [("roots", .number roots)]
  | analyze rules => [("rules", .number rules)]
  | evaluate rule length => [("rule", .text (toString rule)), ("len", .number length)]
  | apply rule pos => [("rule", .text rule), ("pos", .number pos)]

/-- Names in double quotes between brackets. -/
def quotedNames (names : List String) : String :=
  "[" ++ ", ".intercalate (names.map fun name => "\"" ++ name ++ "\"") ++ "]"

def Note.message : Note → String
  | rulesRegistered .. => "rules registered"
  | nullabilityReached .. => "nullability fixpoint reached"
  | grammarAnalyzed .. => "grammar analyzed"
  | evaluationFinished .. => "evaluation finished"
  | seedGrown .. => "seed grown"
  | entered _ => "enter"
  | left .. | leftWith _ => "exit"

def Note.fields : Note → List (String × FieldValue)
  | rulesRegistered added total => [("added", .number added), ("total", .number total)]
  | nullabilityReached passes nullable => [("passes", .number passes), ("nullable", .number nullable)]
  | grammarAnalyzed nullable leftRecursive =>
    [("nullable", .number nullable), ("left_recursive", .text (quotedNames leftRecursive))]
  | evaluationFinished matched length steps =>
    [("matched", .flag matched), ("length", .number length), ("steps", .number steps)]
  | seedGrown rule pos rounds length =>
    [("rule", .text rule), ("pos", .number pos), ("rounds", .number rounds), ("length", .number length)]
  | entered input => [("input", .text input)]
  | left matched length => [("matched", .flag matched), ("length", .number length)]
  | leftWith e => [("err", .text e.message)]

/-- A report of work inside a span. -/
def Span.around (s : Span) (inside : List Event) : List Event := .opened s :: inside ++ [.closed s]

def Nullability.note (n : Nullability) : Note := .nullabilityReached n.passes n.rules.size

namespace Grammar

/-- The report of registering roots, from the grammar before and after. -/
def registerReport (before : Grammar) (roots : List RuleId)
    (outcome : Except GrammarError (List RuleId) × Grammar) : List Event :=
  (Span.register roots.length).around <|
    match outcome with
    | (.ok _, after) =>
      [.note (.rulesRegistered (after.rules.length - before.rules.length) after.rules.length)]
    | (.error _, _) => []

/-- The report of analysing, from the grammar before and after. -/
def analyzeReport (before after : Grammar) : List Event :=
  (Span.analyze before.rules.length).around <|
    match before.analysis, after.analysis with
    | none, some analysis =>
      [.note analysis.nullability.note,
        .note (.grammarAnalyzed analysis.nullability.rules.size
          (after.leftRecursiveRules.filterMap after.nameOf))]
    | _, _ => []

end Grammar

end Packrat
