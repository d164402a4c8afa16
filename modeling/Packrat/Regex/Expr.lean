import Packrat.Regex.Assertion

/-! Regular expressions, and the shape in which they are kept.

A run of parts is a right-nested `cat` in which no left part is itself a run or
empty; a choice is a right-nested `alt` in which no left part is itself a choice.
`append`, `repeated` and `choose` build that shape. `choose` does more: branches
that are all single characters, or all larger character sets, become one set, and
parts with which every branch begins are taken out in front, where characters in a
row are one part. The second step is visible. When such a part can match in several
ways, all branches are tried after its preferred way before its next one is
considered. -/
namespace Packrat.Regex

inductive Expr where
  /-- Matches nothing, everywhere. -/
  | empty
  /-- One character out of the set. A set of bytes is never the same part as one of characters,
  which is all that the mark is for. -/
  | one (s : CharSet) (bytes : Bool)
  | assert (a : Assertion)
  /-- A numbered group. -/
  | capture (index : Nat) (e : Expr)
  /-- At least `lo` and at most `hi` times, as often as possible if greedy. -/
  | times (lo : Nat) (hi : Option Nat) (greedy : Bool) (e : Expr)
  /-- One after the other. -/
  | cat (a b : Expr)
  /-- The first branch, or else the second. -/
  | alt (a b : Expr)
deriving DecidableEq, Repr

namespace Expr

/-- Matches nowhere. -/
def never : Expr := one ∅ false

/-- One character out of a set. With at most one member it makes no difference of what it is a set. -/
def ofSet (s : CharSet) (bytes : Bool) : Expr := one s (bytes && s != ∅ && !s.isSingleton)

/-- The number of nodes. -/
def size : Expr → Nat
  | empty | one .. | assert _ => 1
  | capture _ e | times _ _ _ e => e.size + 1
  | cat a b | alt a b => a.size + b.size + 1

/-- Whether the expression can match nothing but the empty text. -/
def onlyEmpty : Expr → Bool
  | empty | assert _ => true
  | one .. => false
  | capture _ e => e.onlyEmpty
  | times _ hi _ e => hi.isSome && e.onlyEmpty
  | cat a b | alt a b => a.onlyEmpty && b.onlyEmpty

/-- Whether every match begins where the text begins. -/
def anchored : Expr → Bool
  | empty | one .. => false
  | assert a => a = .textStart
  | capture _ e => e.anchored
  | times lo _ _ e => 0 < lo && e.anchored
  | cat a b => a.anchored || b.anchored
  | alt a b => a.anchored && b.anchored

/-- One expression after another. -/
def append : Expr → Expr → Expr
  | empty, b => b
  | cat x y, b => cat x (append y b)
  | a, empty => a
  | a, b => cat a b

/-- Whether the expression is a character or a row of them. -/
def isText : Expr → Bool
  | one s _ => s.isSingleton
  | cat a b => a.isText && b.isText
  | _ => false

/-- The parts of a run, where characters in a row are one part. -/
def items : Expr → List Expr
  | empty => []
  | cat a b =>
    match b.items with
    | e :: rest => if a.isText && e.isText then cat a e :: rest else a :: e :: rest
    | [] => [a]
  | e => [e]

def concat (parts : List Expr) : Expr := parts.foldr append empty

/-- A counted repetition. Repeating what only matches the empty text more than once adds nothing. -/
def repeated (lo : Nat) (hi : Option Nat) (greedy : Bool) (e : Expr) : Expr :=
  let (lo, hi) := if e.onlyEmpty then (min lo 1, some (min (hi.getD 1) 1)) else (lo, hi)
  if hi = some 0 ∧ lo = 0 then empty
  else if hi = some 1 ∧ lo = 1 then e
  else times lo hi greedy e

/-- The branches of a choice. -/
def branches : Expr → List Expr
  | alt a b => a :: b.branches
  | e => [e]

/-- The branches as they stand, in order of preference. -/
def anyOf : List Expr → Expr
  | [] => never
  | [e] => e
  | e :: rest => alt e (anyOf rest)

def charSet? : Expr → Option CharSet
  | one s _ => some s
  | _ => none

/-- One set in place of branches that are all single characters or all larger sets. -/
def mergedSet? (l : List Expr) : Option CharSet := do
  let sets ← l.mapM charSet?
  guard (sets.all CharSet.isSingleton || sets.all (!·.isSingleton))
  return sets.foldl (· ∪ ·) ∅

/-- The parts with which both runs begin. -/
def commonParts : List Expr → List Expr → List Expr
  | a :: as, b :: bs => if a = b then a :: commonParts as bs else []
  | _, _ => []

/-- The parts with which every branch begins, if every branch is a run. -/
def sharedParts (l : List Expr) : List Expr :=
  match l with
  | [] => []
  | e :: rest =>
    if l.all (1 < ·.items.length) then
      rest.foldl (fun parts b => commonParts parts b.items) e.items
    else []

/-- A choice whose shared parts are taken out at most `rounds` times. -/
def chooseWithin : Nat → List Expr → Expr
  | 0, l => anyOf (l.flatMap branches)
  | rounds + 1, l =>
    match l.flatMap branches with
    | [] => never
    | [e] => e
    | l =>
      match mergedSet? l, sharedParts l with
      | some s, _ => one s false
      | none, [] => anyOf l
      | none, parts =>
        let rests := l.map fun e => concat (e.items.drop parts.length)
        append (concat parts) (chooseWithin rounds rests)

/-- The branches in order of preference. Each round takes a part off every branch, so there
are fewer rounds than nodes. -/
def choose (l : List Expr) : Expr := chooseWithin (l.foldl (fun n e => n + e.size) 0) l

end Expr

end Packrat.Regex
