import Packrat.Proofs.Recognition.Preorder
import Packrat.Proofs.Forest.Agreement
import Packrat.Proofs.Forest.Descent
import Packrat.Proofs.Forest.Calls

/-! Derivations keep all there is in an answer.

The forest of a derivation is ordered (`Derivation.ordered_ofAnswer`): the children of a node are
made all at once, but none of them is above a node that was there. So the root has a tree, with the
steps of the answer's own tree in the same places (`Derivation.Shows.map_tree`). This tree has as
many nodes as were made, which leaves none out. -/
namespace Packrat

namespace Forest
variable {α : Type} {f : Forest α} {p x : NodeId} {values : List α}

theorem newChildren_fresh (hx : x ∈ (f.newChildren p values).2) : ¬ f.Allocated x :=
  Nat.not_lt.mpr (mem_newChildren.mp hx).1

theorem children_newChildren (hp : f.Allocated p) (values : List α) (x : NodeId) :
    (f.newChildren p values).1.children x =
      if x = p then f.children p ++ (f.newChildren p values).2 else f.children x := by
  rw [children, node?_newChildren f values hp]
  by_cases hx : x.index < f.size
  · obtain ⟨n, hn⟩ := allocated_iff.mp hx
    by_cases hxp : x = p
    · subst hxp
      simp [hx, hn, children_of_node? hn]
    · simp [hx, hxp, hn, children_of_node? hn]
  · have hxp : x ≠ p := fun heq => hx (heq ▸ hp)
    rw [if_neg hx, if_neg hxp, children_of_not_allocated hx]
    cases values[x.index - f.size]? <;> rfl

theorem parent?_newChildren (hp : f.Allocated p) (values : List α) (x : NodeId) :
    (f.newChildren p values).1.parent? x = if x ∈
      (f.newChildren p values).2 then some p else f.parent? x := by
  rw [parent?, node?_newChildren f values hp]
  by_cases hx : x.index < f.size
  · rw [if_pos hx, if_neg fun hmade => newChildren_fresh hmade hx, parent?]
    by_cases hxp : x = p
    · rw [if_pos hxp]
      cases f.node? x <;> rfl
    · rw [if_neg hxp]
  · rw [if_neg hx, parent?_of_not_allocated hx]
    by_cases hmade : x.index < f.size + values.length
    · rw [if_pos (mem_newChildren.mpr ⟨Nat.le_of_not_lt hx, hmade⟩),
        List.getElem?_eq_getElem (by omega)]
      rfl
    · rw [if_neg fun hmem => hmade (mem_newChildren.mp hmem).2, List.getElem?_eq_none (by omega)]
      rfl

theorem Ordered.not_above_of_not_allocated (h : f.Ordered) (hp : f.Allocated p)
    (hx : ¬ f.Allocated x) : ¬ Relation.ReflTransGen f.Parent p x := by
  intro hup
  rcases hup.cases_tail with rfl | ⟨y, _, hy⟩
  · exact hx hp
  · exact hx (h.allocated_parent hy)

theorem Ordered.newChildren (h : f.Ordered) (hp : f.Allocated p) (values : List α) :
    (f.newChildren p values).1.Ordered := by
  have hchildren := children_newChildren hp values
  have hparent := parent?_newChildren hp values
  have hfresh : ∀ x ∈ (f.newChildren p values).2, f.parent? x = none := fun x hx =>
    parent?_of_not_allocated (newChildren_fresh hx)
  refine ⟨fun q x => ?linked, fun q => ?nodup, acyclic_of_links (p := p) h.acyclic
    fun y z hyz => ?links⟩
  case linked =>
    have hold := h.linked p x
    have hother := h.linked q x
    have hmade := hfresh x
    rw [hchildren, hparent]
    grind
  case nodup =>
    rw [hchildren]
    split
    · refine List.nodup_append.mpr ⟨h.nodup p, nodup_newChildren .., fun x hx y hy heq => ?_⟩
      cases (hfresh y hy).symm.trans (heq ▸ (h.linked p x).mp hx)
    · exact h.nodup q
  case links =>
    rw [Parent, hparent] at hyz
    by_cases hy : y ∈ (f.newChildren p values).2
    · rw [if_pos hy] at hyz
      exact .inr ⟨h.not_above_of_not_allocated hp (newChildren_fresh hy),
        (Option.some.inj hyz).symm⟩
    · rw [if_neg hy] at hyz
      exact .inl hyz

end Forest

namespace Answer

/-- What holds of an answer if it holds of all that it is made of holds of all answers. -/
theorem induct {motive : Answer → Prop}
    (made : ∀ a : Answer, (∀ c ∈ a.children, motive c) → motive a) : ∀ a, motive a
  | ⟨rule, start, matched, length, children⟩ => made _ fun c _ => induct made c

/-- The tree of steps that an answer is. -/
def tree : Answer → OrderedTree Step
  | ⟨rule, start, matched, length, children⟩ => .node ⟨rule, start, matched, length⟩ (trees children)
where
  /-- The trees of several answers. -/
  trees : List Answer → List (OrderedTree Step)
    | [] => []
    | a :: rest => a.tree :: trees rest

theorem tree_eq (a : Answer) : a.tree = .node a.step (a.children.map tree) := by
  have htrees : ∀ l : List Answer, tree.trees l = l.map tree := by
    intro l
    induction l with
    | nil => rfl
    | cons a rest ih => rw [tree.trees, ih, List.map_cons]
  cases a
  rw [tree, htrees]
  rfl

/-- An answer has nothing but its step and the answers that it is made of. -/
theorem eq_of_trees {a b : Answer} (h : a.tree.map some = b.tree.map some) : a = b := by
  induction a using induct generalizing b with
  | made a ih =>
    rw [tree_eq a, tree_eq b, OrderedTree.map_node, OrderedTree.map_node, List.map_map,
      List.map_map] at h
    obtain ⟨hstep, hchildren⟩ := OrderedTree.node.inj h
    have hlength : a.children.length = b.children.length := by
      simpa using congrArg List.length hchildren
    have hsame : a.children = b.children := by
      refine List.ext_getElem hlength fun i hi hi' => ih _ (List.getElem_mem hi) ?_
      simpa [hi, hi'] using congrArg (·[i]?) hchildren
    cases a
    cases b
    simp_all [step]

theorem length_labels_tree (a : Answer) : a.tree.labels.length = a.size := by
  induction a using induct with
  | made a ih =>
    rw [tree_eq, OrderedTree.labels_node, size_eq, List.length_cons, List.flatMap_map,
      List.length_flatMap, List.map_congr_left ih]
    omega

end Answer

namespace Derivation

theorem ordered_layOut {n : Nat} {f : Forest Step} {pending : List (NodeId × Answer)}
    (h : f.Ordered) (hpending : ∀ p ∈ pending, f.Allocated p.1) : (layOut n f pending).Ordered := by
  induction n generalizing f pending with
  | zero => cases pending <;> exact h
  | succ n ih =>
    cases pending with
    | nil => exact h
    | cons p rest =>
      obtain ⟨id, a⟩ := p
      obtain ⟨hid, hrest⟩ := List.forall_mem_cons.mp hpending
      have hthere : ∀ p ∈ ((f.newChildren id (a.children.map (·.step))).2.zip a.children).reverse ++
          rest, (f.newChildren id (a.children.map (·.step))).1.Allocated p.1 := by
        intro p hp
        rw [Forest.Allocated, Forest.size_newChildren]
        rcases List.mem_append.mp hp with hp | hp
        · exact (Forest.mem_newChildren.mp (List.of_mem_zip (List.mem_reverse.mp hp)).1).2
        · exact Nat.lt_add_right _ (hrest p hp)
      exact ih (h.newChildren hid _) hthere

theorem ordered_ofAnswer (a : Answer) : (ofAnswer a).forest.Ordered :=
  ordered_layOut (Forest.Ordered.empty.newNode a.step)
  (List.forall_mem_singleton.mpr Nat.zero_lt_one)

theorem allocated_root (a : Answer) : (ofAnswer a).forest.Allocated (ofAnswer a).root := by
  obtain ⟨label, h⟩ := ofAnswer_shows a
  exact Forest.allocated_iff.mpr h.root.2

/-- A node's tree has the steps of the answer that the node stands for. -/
theorem Shows.values_eq {d : Derivation} {a : Answer} {label : NodeId → Answer}
    (h : d.Shows a label) (hordered : d.forest.Ordered) {id : NodeId}
    (hid : d.forest.Allocated id) : d.forest.values id = (label id).tree.map some := by
  induction id using hordered.induct_down with
  | node id ih =>
    obtain ⟨n, hn⟩ := Forest.allocated_iff.mp hid
    obtain ⟨hvalue, _, hchildren, hmade⟩ := h.node id n hn
    rw [← Forest.children_of_node? hn] at hchildren hmade
    rw [hordered.values_eq, Answer.tree_eq, OrderedTree.map_node, Forest.value?_of_node? hn, hvalue,
      ← hchildren, List.map_congr_left fun c hc => ih c hc (hmade c hc), List.map_map, List.map_map]
    rfl

theorem values_ofAnswer (a : Answer) :
    (ofAnswer a).forest.values (ofAnswer a).root = a.tree.map some := by
  obtain ⟨label, h⟩ := ofAnswer_shows a
  rw [h.values_eq (ordered_ofAnswer a) (allocated_root a), h.root.1]

/-- Where a value is asked for, the first element that has it is in the place of the first value. -/
theorem find?_zip {α β : Type} {g : α → Option β} {l : List α} {m : List β}
    (h : l.map g = m.map some) (p : β → Bool) :
    (l.find? fun x => (g x).any p) = ((l.zip m).find? (p ·.2)).map Prod.fst := by
  induction l generalizing m with
  | nil => rfl
  | cons x l ih =>
    cases m with
    | nil => cases h
    | cons y m =>
      obtain ⟨hx, hl⟩ := List.cons.inj h
      rw [List.zip_cons_cons, List.find?_cons, List.find?_cons, hx, ih hl, Option.any_some]
      cases p y <;> rfl

/-- A derivation has the steps of its answer in the same places, and nothing else: the tree below
its root is the answer's tree, with every node that was made in it once. So the first node of a rule
stands in the place of the first answer with this rule, and derivations are the same for the same
answers only. -/
theorem ofAnswer_faithful (a : Answer) :
    let d := ofAnswer a
    let nodes := (d.forest.tree d.root).labels
    (d.forest.tree d.root).map d.step? = a.tree.map some ∧
    nodes.Perm ((List.range d.size).map NodeId.mk) ∧
      d.size = a.tree.labels.length ∧
      (∀ rule, d.find? rule = ((nodes.zip a.tree.labels).find? (·.2.rule = rule)).map Prod.fst) ∧
      ∀ b, d.same (ofAnswer b) = true ↔ a = b := by
  intro d nodes
  have h := ordered_ofAnswer a
  have hroot := allocated_root a
  have htree : (d.forest.tree d.root).map d.step? = a.tree.map some := values_ofAnswer a
  have hlabels : nodes.map d.step? = a.tree.labels.map some := by
    rw [← OrderedTree.labels_map, htree, OrderedTree.labels_map]
  have hsize : d.size = a.tree.labels.length :=
    (size_ofAnswer a).trans (Answer.length_labels_tree a).symm
  have hlength : nodes.length = d.size := by simpa [hsize] using congrArg List.length hlabels
  refine ⟨htree, ?every, hsize, fun rule => ?find, fun b => ?same⟩
  case every =>
    refine (Forest.subperm_all (h.nodup_tree _) fun _ => h.allocated_tree hroot).perm_of_length_le
      ?_
    rw [List.length_map, List.length_range]
    exact hlength.ge
  case find =>
    rw [find?, Derivation.nodes, h.descendants_eq hroot]
    exact find?_zip hlabels _
  case same =>
    rw [same, h.sameTree_iff (ordered_ofAnswer b) hroot (allocated_root b), values_ofAnswer,
      values_ofAnswer]
    exact ⟨Answer.eq_of_trees, fun heq => heq ▸ rfl⟩

/-- Children are made all at once, and those of the last child come first: the order of making is
not the pre-order. -/
example :
    (ofAnswer
        (.node ⟨0⟩ 0 2 [.node ⟨1⟩ 0 1 [.node ⟨2⟩ 0 1 []],
        .node ⟨3⟩ 1 1 [.node ⟨4⟩ 1 1 []]])).nodes = [⟨0⟩, ⟨1⟩, ⟨4⟩, ⟨2⟩, ⟨3⟩] := by rfl

end Derivation

end Packrat
