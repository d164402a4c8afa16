/-! Ordered trees whose nodes know their parents.

A forest keeps all nodes that were ever made, numbered in the order of making, and a
node without a parent is the root of a tree. Links go both ways, from a parent to its
children in order and from each child back; the edits of `Packrat.Forest.Edit` keep
the two in step. -/
namespace Packrat

structure NodeId where
  index : Nat
deriving DecidableEq, Hashable, Repr

instance : ToString NodeId := ⟨fun id => s!"NodeId({id.index})"⟩

structure Node (α : Type) where
  value : α
  parent : Option NodeId := none
  children : List NodeId := []
deriving DecidableEq, Repr

structure Forest (α : Type) where
  nodes : Array (Node α) := #[]
deriving DecidableEq, Repr

inductive ForestError where
  /-- No such node was made. -/
  | unallocated (node : NodeId)
  | alreadyAttached (node : NodeId)
  /-- The child would become its own ancestor. -/
  | wouldCycle (parent child : NodeId)
  | indexOutOfRange (index length : Nat)
  | notAChild (parent child : NodeId)
deriving DecidableEq, Repr

def ForestError.message : ForestError → String
  | unallocated node => s!"node {node} is not allocated"
  | alreadyAttached node => s!"node {node} is already attached to a parent"
  | wouldCycle parent child => s!"attaching {child} under {parent} would create a cycle"
  | indexOutOfRange index length => s!"index {index} is out of range for {length} children"
  | notAChild parent child => s!"node {child} is not a child of {parent}"

namespace Forest
variable {α : Type}

/-- The number of nodes, attached or not. -/
def size (f : Forest α) : Nat := f.nodes.size

def node? (f : Forest α) (id : NodeId) : Option (Node α) := f.nodes[id.index]?

def node (f : Forest α) (id : NodeId) : Except ForestError (Node α) :=
  match f.node? id with
  | some n => .ok n
  | none => .error (.unallocated id)

def parent? (f : Forest α) (id : NodeId) : Option NodeId := (f.node? id).bind (·.parent)

def children (f : Forest α) (id : NodeId) : List NodeId :=
  match f.node? id with
  | some n => n.children
  | none => []

/-! ### Walks

No path through a forest is longer than its number of nodes, which bounds each walk. -/

/-- Goes up by at most so many parents. -/
def climb (f : Forest α) : Nat → NodeId → NodeId
  | 0, id => id
  | n + 1, id =>
    match f.parent? id with
    | some p => f.climb n p
    | none => id

/-- The root of the tree that holds a node. -/
def root (f : Forest α) (id : NodeId) : NodeId := f.climb f.size id

/-- The position of a node among its parent's children. -/
def position? (f : Forest α) (id : NodeId) : Option Nat :=
  (f.parent? id).bind fun p => (f.children p).idxOf? id

/-- The pending nodes with all that is below each, a parent before its children. -/
def preorder (f : Forest α) : Nat → List NodeId → List NodeId
  | _, [] => []
  | 0, _ => []
  | n + 1, id :: pending => id :: f.preorder n (f.children id ++ pending)

/-- A node and all that is below it, in pre-order. -/
def descendants (f : Forest α) (id : NodeId) : List NodeId := f.preorder f.size [id]

/-- The first child with a value that satisfies `p`. -/
def findChild (f : Forest α) (p : α → Bool) (id : NodeId) : Option NodeId :=
  (f.children id).find? fun c => (f.node? c).any fun n => p n.value

variable [BEq α]

/-- Whether the trees below the pending pairs of nodes agree. The last children of two nodes are
compared before the first. -/
def agree (f g : Forest α) : Nat → List (NodeId × NodeId) → Bool
  | _, [] => true
  | 0, _ => false
  | n + 1, (a, b) :: pending =>
    match f.node? a, g.node? b with
    | some x, some y =>
      x.value == y.value && x.children.length = y.children.length &&
        agree f g n ((x.children.zip y.children).reverse ++ pending)
    | _, _ => false

/-- Whether the tree below `a` and the tree of another forest below `b` have the same values and the
same shape. -/
def sameTree (f : Forest α) (a : NodeId) (g : Forest α) (b : NodeId) : Bool :=
  agree f g f.size [(a, b)]

end Forest

end Packrat
