import Packrat.Forest.Basic

/-! Edits of a forest.

An edit changes a forest in place and may fail on the way, where what it did stays done. So each one
looks first whether it can be done as a whole, and changes the links on both sides only then. A node
can be attached when it has no parent and is not the root of the tree that it would
go into; since only roots have no parent, this keeps every tree free of cycles. -/
namespace Packrat

/-- An edit of a forest. What it did to the forest stays done when it fails. -/
abbrev Editing (α β : Type) := ExceptT ForestError (StateM (Forest α)) β

namespace Forest
variable {α β : Type}

def modify (f : Forest α) (id : NodeId) (g : Node α → Node α) : Forest α :=
  ⟨f.nodes.modify id.index g⟩

def setChildren (f : Forest α) (id : NodeId) (g : List NodeId → List NodeId) : Forest α :=
  f.modify id fun n => { n with children := g n.children }

/-- Makes a node without a parent. -/
def newNode (f : Forest α) (value : α) : Forest α × NodeId :=
  (⟨f.nodes.push { value }⟩, ⟨f.size⟩)

/-- Makes nodes that become the last children of `parent`, in order. -/
def newChildren (f : Forest α) (parent : NodeId) (values : List α) : Forest α × List NodeId :=
  let ids := (List.range' f.size values.length).map NodeId.mk
  let made : Forest α :=
    ⟨values.foldl (fun nodes value => nodes.push { value, parent := some parent }) f.nodes⟩
  (made.setChildren parent (· ++ ids), ids)

/-- Fails unless `child` can be attached under `parent`. -/
def checkAttachable (f : Forest α) (parent child : NodeId) : Except ForestError Unit := do
  if (← f.node child).parent.isSome then throw (.alreadyAttached child)
  let _ ← f.node parent
  if f.root parent = child then throw (.wouldCycle parent child)

/-- Fails unless all of these can be attached under `parent`, one after the other; `before` are those
already found attachable. -/
def checkAllAttachable (f : Forest α) (parent : NodeId) (before : List NodeId) :
    List NodeId → Except ForestError Unit
  | [] => return
  | child :: rest => do
    f.checkAttachable parent child
    if child ∈ before then throw (.alreadyAttached child)
    f.checkAllAttachable parent (child :: before) rest

end Forest

namespace Editing
variable {α β : Type}

/-! ### Single nodes -/

/-- Looks at the forest. -/
def ask (look : Forest α → Except ForestError β) : Editing α β := fun f => (look f, f)

/-- Changes a node, which must be there. -/
def change (id : NodeId) (g : Node α → Node α) : Editing α Unit := do
  let _ ← ask (·.node id)
  modify (·.modify id g)

def setParent (parent : Option NodeId) (id : NodeId) : Editing α Unit :=
  change id fun n => { n with parent }

def setChildren (id : NodeId) (g : List NodeId → List NodeId) : Editing α Unit :=
  change id fun n => { n with children := g n.children }

def setValue (id : NodeId) (value : α) : Editing α Unit := change id fun n => { n with value }

/-- Makes a node without a parent. -/
def newNode (value : α) : Editing α NodeId :=
  modifyGet fun f => (f.newNode value).swap

/-! ### Links -/

/-- Links a node to `parent`, which gets the children that `place` makes of those it has. -/
def attach (parent child : NodeId) (place : List NodeId → List NodeId) : Editing α Unit := do
  setParent (some parent) child
  setChildren parent place

/-- Makes a node that becomes the last child of `parent`, which is looked up after the node is made. -/
def newChild (parent : NodeId) (value : α) : Editing α NodeId := do
  let child ← newNode value
  attach parent child (· ++ [child])
  return child

/-- Attaches nodes as the last children of `parent`, in order. -/
def add (parent : NodeId) (children : List NodeId) : Editing α Unit := do
  ask (·.checkAllAttachable parent [] children)
  children.forM fun child => attach parent child (· ++ [child])

/-- Attaches a node as the child of `parent` at a position. -/
def insert (parent child : NodeId) (index : Nat) : Editing α Unit := do
  let length := (← ask (·.node parent)).children.length
  if length < index then throw (.indexOutOfRange index length)
  ask (·.checkAttachable parent child)
  attach parent child (·.insertIdx index child)

/-- Detaches `child` from `parent`, and says whether it was a child there. -/
def remove (parent child : NodeId) : Editing α Bool := do
  if child ∈ (← ask (·.node parent)).children then
    setChildren parent (·.erase child)
    setParent none child
    return true
  else return false

/-- Puts `new` where `old` was, which is detached. -/
def replaceChild (parent old new : NodeId) : Editing α Unit := do
  unless old ∈ (← ask (·.node parent)).children do throw (.notAChild parent old)
  unless old = new do
    ask (·.checkAttachable parent new)
    setParent none old
    attach parent new (·.replace old new)

/-- Detaches every child of a node. -/
def clear (id : NodeId) : Editing α Unit := do
  let children := (← ask (·.node id)).children
  setChildren id fun _ => []
  children.forM (setParent none)

end Editing

/-! ### Edits that leave the forest they start from

Each gives the forest that the edit leaves behind where it succeeds. -/
namespace Forest
variable {α β : Type}

def edit (f : Forest α) (x : Editing α β) : Except ForestError (β × Forest α) :=
  match x f with
  | (.ok b, f') => .ok (b, f')
  | (.error e, _) => .error e

def newChild (f : Forest α) (parent : NodeId) (value : α) : Except ForestError (Forest α × NodeId) :=
  Prod.swap <$> f.edit (Editing.newChild parent value)

def setValue (f : Forest α) (id : NodeId) (value : α) : Except ForestError (Forest α) :=
  Prod.snd <$> f.edit (Editing.setValue id value)

def add (f : Forest α) (parent : NodeId) (children : List NodeId) : Except ForestError (Forest α) :=
  Prod.snd <$> f.edit (Editing.add parent children)

def insert (f : Forest α) (parent child : NodeId) (index : Nat) : Except ForestError (Forest α) :=
  Prod.snd <$> f.edit (Editing.insert parent child index)

/-- Detaches `child` from `parent`; `none` if it is not a child there. -/
def remove (f : Forest α) (parent child : NodeId) : Except ForestError (Option (Forest α)) := do
  let (was, f') ← f.edit (Editing.remove parent child)
  return if was then some f' else none

def replaceChild (f : Forest α) (parent old new : NodeId) : Except ForestError (Forest α) :=
  Prod.snd <$> f.edit (Editing.replaceChild parent old new)

def clear (f : Forest α) (id : NodeId) : Except ForestError (Forest α) :=
  Prod.snd <$> f.edit (Editing.clear id)

end Forest

end Packrat
