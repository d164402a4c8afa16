import Packrat.Regex.Expr

/-! The automaton of a regular expression.

States are numbered instructions. An expression is laid out in front of the state at
which its matches go on, so `layOut` takes that state and gives back the state at
which to begin. Where a state has two ways on, the first is the preferred one. -/
namespace Packrat.Regex

inductive Instr where
  /-- Takes one character of the set. -/
  | take (s : CharSet) (next : Nat)
  /-- Goes on if the assertion holds here. -/
  | check (a : Assertion) (next : Nat)
  /-- Goes either way, the first one preferred. -/
  | fork (first second : Nat)
  | accept
deriving DecidableEq, Repr

/-- A fork between one more round and what comes after. -/
def Instr.again (greedy : Bool) (round after : Nat) : Instr :=
  if greedy then fork round after else fork after round

/-- A state to begin at, and the instructions so far. -/
abbrev Layout := Nat × Array Instr

namespace Layout

def push (i : Instr) (code : Array Instr) : Layout := (code.size, code.push i)

/-- Lays the same part out so many times in a row. -/
def copies (part : Nat → Array Instr → Layout) : Nat → Nat → Array Instr → Layout
  | 0, next, code => (next, code)
  | n + 1, next, code =>
    let (start, code) := copies part n next code
    part start code

/-- Up to so many rounds of a part, each of which may be the last. -/
def options (greedy : Bool) (part : Nat → Array Instr → Layout) (next : Nat) :
    Nat → Array Instr → Layout
  | 0, code => (next, code)
  | n + 1, code =>
    let (start, code) := options greedy part next n code
    let (round, code) := part start code
    push (.again greedy round next) code

/-- One round of a part and then any number of further ones. -/
def loop (greedy : Bool) (part : Nat → Array Instr → Layout) (next : Nat) (code : Array Instr) :
    Layout :=
  let back := code.size
  let (round, code) := part back (code.push .accept)
  (round, code.setIfInBounds back (.again greedy round next))

end Layout

/-- Lays an expression out in front of the state `next`. -/
def Expr.layOut : Expr → (next : Nat) → Array Instr → Layout
  | empty, next, code => (next, code)
  | one s _, next, code => Layout.push (.take s next) code
  | assert a, next, code => Layout.push (.check a next) code
  | capture _ e, next, code => e.layOut next code
  | cat a b, next, code =>
    let (start, code) := b.layOut next code
    a.layOut start code
  | alt a b, next, code =>
    let (first, code) := a.layOut next code
    let (second, code) := b.layOut next code
    Layout.push (.fork first second) code
  | times lo (some hi) greedy e, next, code =>
    let (start, code) := Layout.options greedy e.layOut next (hi - lo) code
    Layout.copies e.layOut lo start code
  | times 0 none greedy e, next, code =>
    let (round, code) := Layout.loop greedy e.layOut next code
    Layout.push (.again greedy round next) code
  | times (lo + 1) none greedy e, next, code =>
    let (start, code) := Layout.loop greedy e.layOut next code
    Layout.copies e.layOut lo start code

structure Automaton where
  code : Array Instr
  start : Nat
  /-- Matches begin at the start of the text only. -/
  anchored : Bool
deriving DecidableEq, Repr

def Automaton.ofExpr (e : Expr) : Automaton :=
  let (start, code) := e.layOut 0 #[.accept]
  { code, start, anchored := e.anchored }

end Packrat.Regex
