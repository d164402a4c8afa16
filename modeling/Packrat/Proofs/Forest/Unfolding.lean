import Packrat.Proofs.Forest.Ordered
import Mathlib.Data.List.Chain

/-! The tree of nodes that a node of a forest is the root of.

In an ordered forest a node's tree has the trees of its children below it (`Ordered.tree_eq`),
however far the unfolding goes down. Its nodes are those that the node is above of, each once
(`Ordered.mem_tree`,
`Ordered.nodup_tree`). -/
namespace Packrat

/-- A tree whose nodes have their children in order. -/
inductive OrderedTree (α : Type) where
  | node (label : α) (children : List (OrderedTree α))

namespace OrderedTree
variable {α β γ : Type}

@[elab_as_elim, induction_eliminator]
theorem induct {motive : OrderedTree α → Prop}
    (node : ∀ a ts, (∀ t ∈ ts, motive t) → motive (.node a ts)) : ∀ t, motive t
  | .node a ts => node a ts fun t _ => induct node t

/-- The labels in pre-order. -/
def labels : OrderedTree α → List α
  | .node a ts => a :: labelsOf ts
where
  /-- The labels of several trees, one after the other. -/
  labelsOf : List (OrderedTree α) → List α
    | [] => []
    | t :: ts => t.labels ++ labelsOf ts

def map (g : α → β) : OrderedTree α → OrderedTree β
  | .node a ts => .node (g a) (mapOf ts)
where
  /-- Each of several trees with other labels. -/
  mapOf : List (OrderedTree α) → List (OrderedTree β)
    | [] => []
    | t :: ts => t.map g :: mapOf ts

@[simp] theorem labels_node (a : α) (ts : List (OrderedTree α)) :
    (node a ts).labels = a :: ts.flatMap labels := by
  have hlabelsOf : ∀ ts : List (OrderedTree α), labels.labelsOf ts = ts.flatMap labels := by
    intro ts
    induction ts with
    | nil => rfl
    | cons t ts ih => rw [labels.labelsOf, ih, List.flatMap_cons]
  rw [labels, hlabelsOf]

@[simp] theorem map_node (g : α → β) (a : α) (ts : List (OrderedTree α)) :
    (node a ts).map g = .node (g a) (ts.map (map g)) := by
  have hmapOf : ∀ ts : List (OrderedTree α), map.mapOf g ts = ts.map (map g) := by
    intro ts
    induction ts with
    | nil => rfl
    | cons t ts ih => rw [map.mapOf, ih, List.map_cons]
  rw [map, hmapOf]

theorem labels_map (g : α → β) (t : OrderedTree α) : (t.map g).labels = t.labels.map g := by
  induction t with
  | node a ts ih =>
    simp only [map_node, labels_node, List.map_cons, List.map_flatMap, List.flatMap_map]
    rw [List.flatMap_congr ih]

end OrderedTree

namespace Forest
variable {α : Type} {f g : Forest α} {c x y : NodeId} {n : Nat}

/-- The tree of nodes that a node is the root of, as far as it goes down by so many children. -/
def treeWithin (f : Forest α) : Nat → NodeId → OrderedTree NodeId
  | 0, x => .node x []
  | n + 1, x => .node x ((f.children x).map (f.treeWithin n))

/-- The tree of nodes that a node is the root of. No path in it is longer than the number of all
nodes. -/
def tree (f : Forest α) (x : NodeId) : OrderedTree NodeId := f.treeWithin f.size x

def value? (f : Forest α) (x : NodeId) : Option α := (f.node? x).map Node.value

/-- The tree of values below a node. -/
def values (f : Forest α) (x : NodeId) : OrderedTree (Option α) := (f.tree x).map f.value?

theorem value?_of_node? {m : Node α} (h : f.node? x = some m) : f.value? x = some m.value := by
  rw [value?, h, Option.map_some]

/-- A tree without a path of so many children is not cut off. -/
theorem treeWithin_succ (hx : ∀ l, List.IsChain (fun y c => c ∈ f.children y) (x :: l) →
      l.length < n) :
    f.treeWithin (n + 1) x = f.treeWithin n x := by
  induction n generalizing x with
  | zero => exact absurd (hx [] (.singleton x)) (Nat.not_lt_zero _)
  | succ n ih =>
    have hchildren : ∀ c ∈ f.children x, f.treeWithin (n + 1) c = f.treeWithin n c := fun c hc =>
      ih fun l hl => Nat.lt_of_succ_lt_succ (hx (c :: l) (.cons_cons hc hl))
    rw [treeWithin, List.map_congr_left hchildren, treeWithin]

namespace Ordered

/-- A path of children meets no node twice. -/
theorem path_down_length (h : f.Ordered) (hx : f.Allocated x) {l : List NodeId}
    (hl : List.IsChain (fun y c => c ∈ f.children y) (x :: l)) : l.length < f.size := by
  have hup : List.IsChain f.Parent (x :: l).reverse :=
    List.isChain_reverse.mpr (hl.imp fun y c hc => (h.linked y c).mp hc)
  cases hlast : (x :: l).reverse with
  | nil => cases List.reverse_eq_nil_iff.mp hlast
  | cons y l' =>
    have hy : f.Allocated y := by
      rw [hlast] at hup
      cases l' with
      | nil =>
        have hsingle := congrArg List.reverse hlast
        rw [List.reverse_reverse, List.reverse_singleton] at hsingle
        exact (List.cons.inj hsingle).1 ▸ hx
      | cons z l' => exact allocated_of_parent? (List.isChain_cons_cons.mp hup).1
    have hlength := congrArg List.length hlast
    simp only [List.length_reverse, List.length_cons] at hlength
    have := h.path_length hy (hlast ▸ hup)
    omega

/-- A node's tree has the trees of its children below it. -/
theorem tree_eq (h : f.Ordered) (x : NodeId) : f.tree x = .node x ((f.children x).map f.tree) := by
  have hsucc : f.treeWithin (f.size + 1) x = f.tree x := by
    by_cases hx : f.Allocated x
    · exact treeWithin_succ fun l hl => h.path_down_length hx hl
    · rw [tree]
      cases f.size <;> simp [treeWithin, children_of_not_allocated hx]
  exact hsucc.symm

theorem values_eq (h : f.Ordered) (x : NodeId) :
    f.values x = .node (f.value? x) ((f.children x).map f.values) := by
  rw [values, h.tree_eq, OrderedTree.map_node, List.map_map]
  rfl

theorem labels_eq (h : f.Ordered) (x : NodeId) :
    (f.tree x).labels = x :: (f.children x).flatMap fun c => (f.tree c).labels := by
  rw [h.tree_eq, OrderedTree.labels_node, List.flatMap_map]

/-- What holds of a node if it holds of its children holds of all nodes. -/
theorem induct_down (h : f.Ordered) {motive : NodeId → Prop}
    (node : ∀ x, (∀ c ∈ f.children x, motive c) → motive x) (x : NodeId) : motive x := by
  induction ht : f.tree x generalizing x with
  | node a ts ih =>
    rw [h.tree_eq] at ht
    obtain ⟨rfl, rfl⟩ := OrderedTree.node.inj ht
    exact node x fun c hc => ih _ (List.mem_map_of_mem hc) c rfl

/-- The nodes of a tree are those that its root is above of. -/
theorem mem_tree (h : f.Ordered) : y ∈ (f.tree x).labels ↔ Relation.ReflTransGen f.Parent y x := by
  induction x using h.induct_down with
  | node x ih =>
    rw [h.labels_eq, List.mem_cons, List.mem_flatMap, Relation.ReflTransGen.cases_tail_iff]
    refine or_congr eq_comm (exists_congr fun c => ?_)
    rw [h.linked, and_comm]
    refine and_congr_left fun hc => ?_
    exact ih c ((h.linked x c).mpr hc)

theorem allocated_tree (h : f.Ordered) (hx : f.Allocated x)
    (hy : y ∈ (f.tree x).labels) : f.Allocated y := by
  rcases h.mem_tree.mp hy |>.cases_head with rfl | ⟨p, hp, _⟩
  · exact hx
  · exact allocated_of_parent? hp

/-- No node is below two children of a node. -/
theorem disjoint_trees (h : f.Ordered) {d : NodeId} (hc : f.Parent c x) (hd : f.Parent d x)
    (hne : c ≠ d) : List.Disjoint (f.tree c).labels (f.tree d).labels := by
  have hunique : Relator.RightUnique f.Parent :=
    fun _ _ _ hp hq => Option.some.inj (hp.symm.trans hq)
  -- A node above both would have one of the children above the other one, and `x` above itself.
  have hcycle : ∀ {c d}, f.Parent c x → f.Parent d x → c ≠ d →
      ¬ Relation.ReflTransGen f.Parent c d := by
    intro c d hc hd hne hup
    rcases hup.cases_head with heq | ⟨p, hp, hup⟩
    · exact hne heq
    · exact h.acyclic x (.tail' (hunique hp hc ▸ hup) hd)
  intro y hyc hyd
  rcases Relation.ReflTransGen.total_of_right_unique hunique (h.mem_tree.mp hyc)
    (h.mem_tree.mp hyd) with hup | hup
  · exact hcycle hc hd hne hup
  · exact hcycle hd hc hne.symm hup

/-- No node is in a tree twice. -/
theorem nodup_tree (h : f.Ordered) (x : NodeId) : (f.tree x).labels.Nodup := by
  induction x using h.induct_down with
  | node x ih =>
    rw [h.labels_eq, List.nodup_cons, List.nodup_flatMap]
    refine ⟨fun hx => ?_, ih, ?_⟩
    · obtain ⟨c, hc, hx⟩ := List.mem_flatMap.mp hx
      exact h.acyclic x (.tail' (h.mem_tree.mp hx) ((h.linked x c).mp hc))
    · refine (h.nodup x).imp_of_mem fun {c d} hc hd hne => ?_
      exact h.disjoint_trees ((h.linked x c).mp hc) ((h.linked x d).mp hd) hne

theorem length_tree_le (h : f.Ordered) (hx : f.Allocated x) : (f.tree x).labels.length ≤ f.size :=
  length_le_size (h.nodup_tree x) fun _ => h.allocated_tree hx

end Ordered

end Forest

end Packrat
