import Packrat.Text.Buffer
import Packrat.Forest.Edit
import Packrat.Recognition.Answer

/-! Derivations: answers laid out as a tree with parent links. -/
namespace Packrat

/-- One application that took part in a match; at the root, one that may have failed. -/
structure Step where
  rule : RuleId
  start : Nat
  matched : Bool
  length : Nat
deriving DecidableEq, Repr

def Step.stop (s : Step) : Nat := s.start + s.length

/-- An answer without its children. -/
def Answer.step (a : Answer) : Step := ⟨a.rule, a.start, a.matched, a.length⟩

/-- The number of answers in an answer, itself included. -/
def Answer.size : Answer → Nat
  | ⟨_, _, _, _, children⟩ => 1 + sizes children
where
  /-- The number of answers in several. -/
  sizes : List Answer → Nat
    | [] => 0
    | a :: rest => a.size + sizes rest

structure Derivation where
  forest : Forest Step
  root : NodeId
deriving DecidableEq

namespace Derivation

/-- Makes the nodes below the pending ones. All children of an answer are made at once, and the last
of them is the first whose own children are made. -/
def layOut : Nat → Forest Step → List (NodeId × Answer) → Forest Step
  | _, f, [] => f
  | 0, f, _ => f
  | n + 1, f, (id, answer) :: pending =>
    let (f, ids) := f.newChildren id (answer.children.map (·.step))
    layOut n f ((ids.zip answer.children).reverse ++ pending)

def ofAnswer (answer : Answer) : Derivation :=
  let (f, root) := ({} : Forest Step).newNode answer.step
  ⟨layOut answer.size f [(root, answer)], root⟩

def size (d : Derivation) : Nat := d.forest.size

def step? (d : Derivation) (id : NodeId) : Option Step := (d.forest.node? id).map (·.value)

/-- All nodes, a parent before its children. -/
def nodes (d : Derivation) : List NodeId := d.forest.descendants d.root

/-- The first node of a rule. -/
def find? (d : Derivation) (rule : RuleId) : Option NodeId :=
  d.nodes.find? fun id => (d.step? id).any (·.rule = rule)

/-- Whether the match covers the buffer from start to end. -/
def isComplete (d : Derivation) (b : Buffer) : Bool :=
  (d.step? d.root).any fun s => s.matched && s.start = 0 && s.length = b.size

/-- The text that a node matched; empty if its ends are no boundaries of the buffer. -/
def text (d : Derivation) (b : Buffer) (id : NodeId) : List Char :=
  ((d.step? id).bind fun s => b.slice? s.start s.stop).getD []

/-- Whether two derivations have the same steps and the same shape. -/
def same (d e : Derivation) : Bool := d.forest.sameTree d.root e.forest e.root

end Derivation

end Packrat
