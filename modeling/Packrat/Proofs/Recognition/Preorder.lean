import Packrat.Proofs.Recognition.Layout
import Packrat.Proofs.Forest.Ordered

/-! The nodes of a derivation in order.

A derivation has a node for each answer within the one that is laid out
(`Derivation.size_ofAnswer`), and its nodes in pre-order stand for these answers in pre-order, a
match in front of what it is made of (`Derivation.Shows.map_nodes`). -/
namespace Packrat

/-- The answer and all that it is made of, each in front of its own children. -/
def Answer.parts : Answer → List Answer
  | ⟨rule, start, matched, length, children⟩ => ⟨rule, start, matched, length, children⟩ :: partsOf children
where
  /-- The parts of several answers, one after the other. -/
  partsOf : List Answer → List Answer
    | [] => []
    | a :: rest => a.parts ++ partsOf rest

theorem partsOf_eq_flatMap (l : List Answer) : Answer.parts.partsOf l = l.flatMap Answer.parts := by
  induction l with
  | nil => rfl
  | cons a rest ih => rw [Answer.parts.partsOf, ih, List.flatMap_cons]

theorem parts_eq (a : Answer) : a.parts = a :: a.children.flatMap Answer.parts := by
  cases a
  rw [Answer.parts, partsOf_eq_flatMap]

namespace Derivation

/-- A node for each answer within a pending one is made, but for the pending nodes, which are
there. -/
theorem size_layOut {n : Nat} {f : Forest Step} {pending : List (NodeId × Answer)}
    (hn : (pending.map (·.2.size)).sum ≤ n) :
    (layOut n f pending).size + pending.length = f.size + (pending.map (·.2.size)).sum := by
  induction n generalizing f pending with
  | zero =>
    cases pending with
    | nil => rfl
    | cons p rest =>
      rw [List.map_cons, List.sum_cons, size_eq] at hn
      omega
  | succ n ih =>
    cases pending with
    | nil => rfl
    | cons p rest =>
      obtain ⟨id, a⟩ := p
      have hsum := Laid.pending_size f id a rest
      have hlength := congrArg List.length (Laid.pending_answers f id a rest)
      simp only [List.length_map, List.length_append, List.length_reverse] at hlength
      have hmade := ih (f := (f.newChildren id (a.children.map (·.step))).1)
        (Nat.le_of_succ_le_succ (hsum ▸ hn))
      rw [List.length_append, List.length_reverse, hlength, Forest.size_newChildren,
        List.length_map] at hmade
      have hstep : layOut (n + 1) f ((id, a) :: rest) = layOut n
          (f.newChildren id (a.children.map (·.step))).1
        (((f.newChildren id (a.children.map (·.step))).2.zip a.children).reverse ++ rest) := rfl
      rw [hstep, ← hsum, List.length_cons]
      omega

/-- There is a node for each answer within the one that is laid out. -/
theorem size_ofAnswer (a : Answer) : (ofAnswer a).size = a.size := by
  have h : (layOut a.size (({} : Forest Step).newNode a.step).1 [(⟨0⟩, a)]).size +
      [((⟨0⟩ : NodeId), a)].length = _ :=
    size_layOut (by simp)
  rw [List.map_singleton, List.sum_singleton, List.length_singleton, Nat.add_comm _ a.size] at h
  exact Nat.add_right_cancel h

/-- The walk below some nodes, if it may take as many steps as there are answers in theirs, meets
the nodes of these answers in pre-order. -/
theorem Shows.map_preorder {d : Derivation} {a : Answer} {label : NodeId → Answer}
    (h : d.Shows a label) {n : Nat} {ids : List NodeId}
    (hids : ∀ id ∈ ids, id.index < d.forest.size) (hn : ((ids.map label).map Answer.size).sum ≤ n) :
    (d.forest.preorder n ids).map label = (ids.map label).flatMap Answer.parts := by
  induction n generalizing ids with
  | zero =>
    cases ids with
    | nil => rfl
    | cons id rest =>
      rw [List.map_cons, List.map_cons, List.sum_cons, size_eq] at hn
      omega
  | succ n ih =>
    cases ids with
    | nil => rfl
    | cons id rest =>
      obtain ⟨hid, hrest⟩ := List.forall_mem_cons.mp hids
      have hnode : d.forest.node? id = some d.forest.nodes[id.index] :=
        Array.getElem?_eq_getElem hid
      obtain ⟨_, _, hchildren, hmade⟩ := h.node id _ hnode
      rw [← Forest.children_of_node? hnode] at hchildren hmade
      have hmap : (d.forest.children id ++ rest).map label = (label id).children ++
          rest.map label := by
        rw [List.map_append, hchildren]
      rw [List.map_cons, List.map_cons, List.sum_cons, size_eq] at hn
      have hthere : ∀ c ∈ d.forest.children id ++ rest, c.index < d.forest.size := fun c hc =>
        (List.mem_append.mp hc).elim (hmade c) (hrest c)
      have hwalk := ih hthere (by rw [hmap, List.map_append, List.sum_append]; omega)
      rw [Forest.preorder, List.map_cons, hwalk, hmap, List.map_cons, List.flatMap_cons,
        List.flatMap_append, parts_eq, List.cons_append]

/-- The walk meets nodes of the derivation only. -/
theorem Shows.lt_of_mem_preorder {d : Derivation} {a : Answer} {label : NodeId → Answer}
    (h : d.Shows a label) {n : Nat} {ids : List NodeId}
    (hids : ∀ id ∈ ids, id.index < d.forest.size) :
    ∀ id ∈ d.forest.preorder n ids, id.index < d.forest.size := by
  induction n generalizing ids with
  | zero => cases ids <;> exact nofun
  | succ n ih =>
    cases ids with
    | nil => exact nofun
    | cons id rest =>
      obtain ⟨hid, hrest⟩ := List.forall_mem_cons.mp hids
      have hnode : d.forest.node? id = some d.forest.nodes[id.index] :=
        Array.getElem?_eq_getElem hid
      have hmade := (h.node id _ hnode).2.2.2
      rw [← Forest.children_of_node? hnode] at hmade
      exact List.forall_mem_cons.mpr ⟨hid, ih fun c hc => (List.mem_append.mp hc).elim
        (hmade c) (hrest c)⟩

/-- The nodes of a derivation stand for the parts of its answer, in the same order. -/
theorem Shows.map_nodes {a : Answer} {label : NodeId → Answer} (h : (ofAnswer a).Shows a label) :
    (ofAnswer a).nodes.map label = a.parts ∧ ∀ id ∈ (ofAnswer a).nodes,
    id.index < (ofAnswer a).size := by
  obtain ⟨hroot, top, htop⟩ := h.root
  have htop : ∀ id ∈ [(ofAnswer a).root], id.index < (ofAnswer a).forest.size :=
    List.forall_mem_singleton.mpr (Forest.node?_lt htop)
  refine ⟨?_, h.lt_of_mem_preorder htop⟩
  have hwalk := h.map_preorder (n := (ofAnswer a).forest.size) htop
    (by
      rw [List.map_singleton, List.map_singleton, List.sum_singleton, hroot]
      exact Nat.le_of_eq (size_ofAnswer a).symm)
  rwa [List.map_singleton, hroot, List.flatMap_singleton] at hwalk

end Derivation

end Packrat
