import Packrat.Proofs.Forest.Unfolding
import Packrat.Proofs.Forest.Calls

/-! The walk through all that is below a node.

The walk takes the first pending node and puts its children in front of the others, until none is
left (`Forest.Walks`). In an ordered forest it comes to its end, and has gone through the trees of
the pending nodes one after the other (`Ordered.walks`). So `descendants` is the recursive
pre-order, and since links go both ways a node is met exactly if the walk began at a node above
it. -/
namespace Packrat.Forest
variable {α : Type} {f : Forest α} {x y : NodeId} {pending l : List NodeId} {n : Nat}

/-- The whole walk from the pending nodes, each of which was made, and the nodes that it goes
through. -/
inductive Walks (f : Forest α) : List NodeId → List NodeId → Prop where
  | done : f.Walks [] []
  | next {x : NodeId} {pending l : List NodeId} : f.Allocated x →
      f.Walks (f.children x ++ pending) l → f.Walks (x :: pending) (x :: l)

/-- A walk that ends within a bound is not cut off by it. -/
theorem Walks.preorder_eq (h : f.Walks pending l) (hn : l.length ≤ n) :
    f.preorder n pending = l := by
  induction h generalizing n with
  | done => cases n <;> rfl
  | next _ _ ih =>
    obtain ⟨n, rfl⟩ := Nat.exists_eq_succ_of_ne_zero (Nat.ne_of_gt (Nat.zero_lt_of_lt hn))
    rw [preorder, ih (Nat.le_of_succ_le_succ hn)]

theorem Walks.unique {l' : List NodeId} (h : f.Walks pending l) (h' : f.Walks pending l') :
    l = l' :=
  (h.preorder_eq (Nat.le_max_left ..)).symm.trans (h'.preorder_eq (Nat.le_max_right ..))

namespace Ordered

/-- The walk goes through the trees of the pending nodes one after the other. -/
theorem walks (h : f.Ordered) (hpending : ∀ x ∈ pending, f.Allocated x) :
    f.Walks pending (pending.flatMap fun x => (f.tree x).labels) := by
  -- The walk has as many nodes before it as there are in these trees.
  induction hn : (pending.flatMap fun x => (f.tree x).labels).length generalizing pending with
  | zero =>
    cases pending with
    | nil => exact .done
    | cons x rest => simp [h.labels_eq x] at hn
  | succ n ih =>
    cases pending with
    | nil => cases hn
    | cons x rest =>
      obtain ⟨hx, hrest⟩ := List.forall_mem_cons.mp hpending
      rw [List.flatMap_cons, h.labels_eq, List.cons_append, ← List.flatMap_append] at hn ⊢
      refine .next hx (ih ?_ (Nat.succ.inj hn))
      exact List.forall_mem_append.mpr ⟨fun c hc => h.allocated_child hc, hrest⟩

theorem descendants_eq (h : f.Ordered) (hx : f.Allocated x) :
    f.descendants x = (f.tree x).labels := by
  have hwalks := h.walks (List.forall_mem_singleton.mpr hx)
  rw [List.flatMap_singleton] at hwalks
  exact hwalks.preorder_eq (h.length_tree_le hx)

theorem mem_descendants (h : f.Ordered) (hx : f.Allocated x) :
    y ∈ f.descendants x ↔ Relation.ReflTransGen f.Parent y x := by
  rw [h.descendants_eq hx, h.mem_tree]

end Ordered

/-- The walk from a node ends, and goes through the node and then, in the same way, through what is
below each of its children in order. It meets each node that child links lead to from there once,
and no other node; and these are the nodes from which parent links lead to it. -/
theorem Reachable.descendants_preorder (hf : f.Reachable) (hx : f.Allocated x) :
    (∀ l, f.Walks [x] l ↔ l = f.descendants x) ∧
    f.descendants x = x :: (f.children x).flatMap f.descendants ∧
    (f.descendants x).Nodup ∧
    (∀ y, y ∈ f.descendants x ↔ Relation.ReflTransGen (fun p c => c ∈ f.children p) x y) ∧
    ∀ y, y ∈ f.descendants x ↔ Relation.ReflTransGen f.Parent y x := by
  have h := hf.ordered
  have hwalks : f.Walks [x] (f.descendants x) := by
    have hwalks := h.walks (List.forall_mem_singleton.mpr hx)
    rwa [List.flatMap_singleton, ← h.descendants_eq hx] at hwalks
  refine ⟨fun l => ⟨fun hl => hl.unique hwalks, fun hl => hl ▸ hwalks⟩, ?recursive, ?once,
    fun y => ?children, fun y => ?parents⟩
  case recursive =>
    rw [h.descendants_eq hx, h.labels_eq]
    exact congrArg _ (List.flatMap_congr fun c hc => (h.descendants_eq (h.allocated_child hc)).symm)
  case once =>
    rw [h.descendants_eq hx]
    exact h.nodup_tree x
  case children =>
    have hlinks : (fun p c => c ∈ f.children p) = Function.swap f.Parent :=
      funext fun p => funext fun c => propext (h.linked p c)
    rw [hlinks, Relation.reflTransGen_swap, h.mem_descendants hx]
  case parents => exact h.mem_descendants hx

/-- Node 3 was made last and became the first child of node 0. Node 2 has a tree of its own. -/
theorem Reachable.descendants_preorder_inserted :
    ∃ f : Forest String, f.Reachable ∧ f.Allocated ⟨0⟩ ∧
    f.Walks [⟨0⟩] [⟨0⟩, ⟨3⟩, ⟨4⟩, ⟨1⟩] ∧ Relation.ReflTransGen f.Parent ⟨4⟩ ⟨0⟩ ∧
    ¬ Relation.ReflTransGen f.Parent ⟨2⟩ ⟨0⟩ := by
  have hone : Reachable _ := Reachable.empty.call (.newNode "a") (by decide)
  have htwo := hone.call (.newChild ⟨0⟩ "b") (by decide)
  have hthree := htwo.call (.newNode "c") (by decide)
  have hfour := hthree.call (.newNode "d") (by decide)
  have hfive := hfour.call (.newChild ⟨3⟩ "e") (by decide)
  have hf := hfive.call (.insert ⟨0⟩ ⟨3⟩ 0) (by decide)
  obtain ⟨hwalks, _, _, _, hmem⟩ := hf.descendants_preorder (x := ⟨0⟩) (by decide)
  refine ⟨_, hf, by decide, (hwalks _).mpr (by rfl), (hmem ⟨4⟩).mp (by decide), fun hup => ?_⟩
  exact absurd ((hmem ⟨2⟩).mpr hup) (by decide)

end Packrat.Forest
