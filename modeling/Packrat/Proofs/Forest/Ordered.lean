import Packrat.Forest.Edit
import Mathlib.Logic.Relation
import Mathlib.Data.List.Nodup
import Mathlib.Data.List.Perm.Subperm

/-! Forests whose links go both ways and never round.

In such a forest (`Forest.Ordered`) no path of parents meets a node twice, so it is no longer than
there are nodes, and going up comes to a node without a parent (`Ordered.root`). What every edit of
the links comes to is that one node gets another list of children (`Forest.relink`). This keeps the
forest ordered if the list has no repetition and those that come are without a parent and not above
the node (`Ordered.relink`). -/
namespace Packrat.Forest
variable {α : Type} {f : Forest α} {p q x y z : NodeId} {l : List NodeId} {n : Node α}

/-- The node was made. -/
def Allocated (f : Forest α) (x : NodeId) : Prop := x.index < f.size

instance (f : Forest α) (x : NodeId) : Decidable (f.Allocated x) :=
  inferInstanceAs (Decidable (_ < _))

def Parent (f : Forest α) (x p : NodeId) : Prop := f.parent? x = some p

structure Ordered (f : Forest α) : Prop where
  linked : ∀ p x, x ∈ f.children p ↔ f.parent? x = some p
  nodup : ∀ p, (f.children p).Nodup
  acyclic : ∀ x, ¬ Relation.TransGen f.Parent x x

/-! ### Nodes -/

theorem ext_node? {f' : Forest α} (h : ∀ x, f'.node? x = f.node? x) : f' = f := by
  cases f
  cases f'
  exact congrArg _ (Array.ext_getElem? fun i => h ⟨i⟩)

theorem allocated_iff : f.Allocated x ↔ ∃ n, f.node? x = some n := by
  simp [Allocated, node?, size, Array.getElem?_eq_some_iff]

theorem Allocated.of_size {f' : Forest α} (h : f.Allocated x) (hsize : f'.size = f.size) :
    f'.Allocated x :=
  Nat.lt_of_lt_of_eq h hsize.symm

theorem node?_of_not_allocated (h : ¬ f.Allocated x) : f.node? x = none :=
  Array.getElem?_eq_none (Nat.le_of_not_lt h)

theorem parent?_of_node? (h : f.node? x = some n) :
    f.parent? x = n.parent := by rw [parent?, h, Option.bind_some]

theorem children_of_node? (h : f.node? x = some n) :
    f.children x = n.children := by rw [children, h]

theorem parent?_of_not_allocated (h : ¬ f.Allocated x) : f.parent? x = none := by
  rw [parent?, node?_of_not_allocated h, Option.bind_none]

theorem children_of_not_allocated (h : ¬ f.Allocated x) : f.children x = [] := by
  rw [children, node?_of_not_allocated h]

theorem allocated_of_parent? (h : f.parent? x = some p) : f.Allocated x := by
  by_contra hx
  rw [parent?_of_not_allocated hx] at h
  cases h

theorem allocated_of_mem_children (h : x ∈ f.children p) : f.Allocated p := by
  by_contra hp
  rw [children_of_not_allocated hp] at h
  cases h

/-- Nodes that are all different are some of those that were made. -/
theorem subperm_all (hnodup : l.Nodup) (hl : ∀ x ∈ l, f.Allocated x) :
    l.Subperm ((List.range f.size).map NodeId.mk) :=
  List.subperm_of_subset hnodup fun x hx =>
    List.mem_map.mpr ⟨x.index, List.mem_range.mpr (hl x hx), rfl⟩

theorem length_le_size (hnodup : l.Nodup) (hl : ∀ x ∈ l, f.Allocated x) : l.length ≤ f.size := by
  simpa using (subperm_all hnodup hl).length_le

@[simp] theorem node?_modify (f : Forest α) (id : NodeId) (g : Node α → Node α) (x : NodeId) :
    (f.modify id g).node? x = (f.node? x).map fun n => if x = id then g n else n := by
  simp only [modify, node?, Array.getElem?_modify]
  by_cases hx : x = id
  · simp only [if_pos hx, if_pos (congrArg NodeId.index hx).symm]
  · simp only [if_neg hx, if_neg fun h => hx (congrArg NodeId.mk h).symm, Option.map_id']

@[simp] theorem size_modify (f : Forest α) (id : NodeId) (g : Node α → Node α) :
    (f.modify id g).size = f.size :=
  Array.size_modify

/-! ### Going up -/

theorem climb_leads (f : Forest α) (n : Nat) (x : NodeId) :
    Relation.ReflTransGen f.Parent x (f.climb n x) := by
  induction n generalizing x with
  | zero => exact .refl
  | succ n ih =>
    rw [climb]
    cases hp : f.parent? x with
    | none => exact .refl
    | some p => exact .head hp (ih p)

/-- Going up ends at a node without a parent, unless there is a path of so many parents. -/
theorem climb_ends (f : Forest α) (n : Nat) (x : NodeId) :
    f.parent? (f.climb n x) = none ∨ ∃ l, List.IsChain f.Parent (x :: l) ∧ l.length = n := by
  induction n generalizing x with
  | zero => exact .inr ⟨[], .singleton x, rfl⟩
  | succ n ih =>
    rw [climb]
    cases hp : f.parent? x with
    | none => exact .inl hp
    | some p =>
      exact (ih p).imp_right fun ⟨l, hl, hlength⟩ => ⟨p :: l, .cons_cons hp hl, congrArg _ hlength⟩

/-- There is one node at most that is above a node and has no parent. -/
theorem root_unique (hy : Relation.ReflTransGen f.Parent x y)
    (hz : Relation.ReflTransGen f.Parent x z) (hy' : f.parent? y = none)
    (hz' : f.parent? z = none) : y = z := by
  induction hy using Relation.ReflTransGen.head_induction_on with
  | refl =>
    rcases hz.cases_head with rfl | ⟨p, hp, _⟩
    · rfl
    · cases hy'.symm.trans hp
  | head hp _ ih =>
    rcases hz.cases_head with rfl | ⟨p', hp', hrest⟩
    · cases hz'.symm.trans hp
    · cases Option.some.inj (hp.symm.trans hp')
      exact ih hrest

namespace Ordered

/-- Only the links count. -/
theorem congr {f' : Forest α} (h : f.Ordered) (hparent : ∀ x, f'.parent? x = f.parent? x)
    (hchildren : ∀ x, f'.children x = f.children x) : f'.Ordered where
  linked p x := by rw [hchildren, hparent, h.linked]
  nodup p := hchildren p ▸ h.nodup p
  acyclic := by
    have hsame : f'.Parent = f.Parent :=
      funext fun x => funext fun p => by rw [Parent, hparent, Parent]
    exact hsame ▸ h.acyclic

theorem allocated_child (h : f.Ordered) (hx : x ∈ f.children p) : f.Allocated x :=
  allocated_of_parent? ((h.linked p x).mp hx)

theorem allocated_parent (h : f.Ordered) (hp : f.Parent x p) : f.Allocated p :=
  allocated_of_mem_children ((h.linked p x).mpr hp)

/-- A path of parents meets no node twice. -/
theorem path_length (h : f.Ordered) (hx : f.Allocated x) (hl : List.IsChain f.Parent (x :: l)) :
    l.length < f.size := by
  have htrans : List.IsChain (Relation.TransGen f.Parent) (x :: l) := hl.imp fun _ _ => .single
  have hpairwise := List.isChain_iff_pairwise.mp htrans
  have hnodup : (x :: l).Nodup := by
    refine hpairwise.imp fun {a b} hup => ?_
    rintro rfl
    exact h.acyclic a hup
  have hallocated : ∀ y ∈ x :: l, f.Allocated y := by
    intro y hy
    rcases List.mem_cons.mp hy with rfl | hy
    · exact hx
    · have hup := (List.pairwise_cons.mp hpairwise).1 y hy
      obtain ⟨z, _, hz⟩ := Relation.TransGen.tail'_iff.mp hup
      exact h.allocated_parent hz
  exact length_le_size hnodup hallocated

/-- Going up from a node ends at one without a parent. -/
theorem root (h : f.Ordered) (x : NodeId) :
    Relation.ReflTransGen f.Parent x (f.root x) ∧ f.parent? (f.root x) = none := by
  refine ⟨climb_leads f f.size x, ?_⟩
  by_cases hx : f.Allocated x
  · refine (climb_ends f f.size x).resolve_right fun ⟨l, hl, hlength⟩ => ?_
    exact absurd (h.path_length hx hl) (by omega)
  · rcases (climb_leads f f.size x).cases_head with heq | ⟨p, hp, _⟩
    · rw [Forest.root, ← heq]
      exact parent?_of_not_allocated hx
    · exact absurd (allocated_of_parent? hp) hx

theorem root_eq_iff (h : f.Ordered) (hy : f.parent? y = none) :
    f.root x = y ↔ Relation.ReflTransGen f.Parent x y := by
  obtain ⟨hroot, hnone⟩ := h.root x
  refine ⟨fun heq => heq ▸ hroot, fun hup => root_unique hroot hup hnone hy⟩

end Ordered

/-! ### Another list of children -/

/-- The forest in which `l` is the list of children of `p`: those that come have `p` as their
parent, and those that go have none. -/
def relink (f : Forest α) (p : NodeId) (l : List NodeId) : Forest α :=
  ⟨f.nodes.mapIdx fun i n => { n with
    parent := if ⟨i⟩ ∈ l then some p else if ⟨i⟩ ∈ f.children p then none else n.parent
    children := if ⟨i⟩ = p then l else n.children }⟩

theorem node?_relink (f : Forest α) (p : NodeId) (l : List NodeId) (x : NodeId) :
    (f.relink p l).node? x = (f.node? x).map fun n => { n with
      parent := if x ∈ l then some p else if x ∈ f.children p then none else n.parent
      children := if x = p then l else n.children } := by
  simp only [relink, node?, Array.getElem?_mapIdx]

@[simp] theorem size_relink (f : Forest α) (p : NodeId) (l : List NodeId) :
    (f.relink p l).size = f.size :=
  Array.size_mapIdx

theorem children_relink (hp : f.Allocated p) (l : List NodeId) (q : NodeId) :
    (f.relink p l).children q = if q = p then l else f.children q := by
  simp only [children, node?_relink]
  cases hq : f.node? q with
  | some n => rfl
  | none =>
    have hne : q ≠ p := by
      rintro rfl
      obtain ⟨n, hn⟩ := allocated_iff.mp hp
      cases hq.symm.trans hn
    rw [if_neg hne]
    rfl

theorem parent?_relink (hl : ∀ x ∈ l, f.Allocated x) (p x : NodeId) :
    (f.relink p l).parent? x =
      if x ∈ l then some p else if x ∈ f.children p then none else f.parent? x := by
  simp only [parent?, node?_relink]
  cases hx : f.node? x with
  | some n => rfl
  | none =>
    have hnot : x ∉ l := by
      intro hmem
      obtain ⟨n, hn⟩ := allocated_iff.mp (hl x hmem)
      cases hx.symm.trans hn
    rw [if_neg hnot, Option.map_none, Option.bind_none, ite_self]

/-- Links to `p` from nodes that are not above `p` close no cycle. -/
theorem acyclic_of_links {R R' : NodeId → NodeId → Prop} (h : ∀ x, ¬ Relation.TransGen R x x)
    (hlinks : ∀ y z, R' y z → R y z ∨ (¬ Relation.ReflTransGen R p y ∧ z = p)) (x : NodeId) :
    ¬ Relation.TransGen R' x x := by
  -- A path goes through old links only, or `p` leads to its end, and its start to a node with a new
  -- link.
  have hsplit : ∀ y, Relation.TransGen R' x y → Relation.TransGen R x y ∨
      ∃ c, ¬ Relation.ReflTransGen R p c ∧ Relation.ReflTransGen R x c ∧
      Relation.ReflTransGen R p y := by
    intro y hy
    induction hy with
    | single hlast =>
      rcases hlinks _ _ hlast with hold | ⟨hnot, rfl⟩
      · exact .inl (.single hold)
      · exact .inr ⟨x, hnot, .refl, .refl⟩
    | tail _ hlast ih =>
      rcases hlinks _ _ hlast with hold | ⟨hnot, rfl⟩
      · exact ih.imp (fun hpath => hpath.tail hold) fun ⟨c, hc, hxc, hpy⟩ =>
          ⟨c, hc, hxc, hpy.tail hold⟩
      · rcases ih with hpath | ⟨c, hc, hxc, _⟩
        · exact .inr ⟨_, hnot, hpath.to_reflTransGen, .refl⟩
        · exact .inr ⟨c, hc, hxc, .refl⟩
  intro hcycle
  rcases hsplit x hcycle with hold | ⟨c, hnot, hxc, hpx⟩
  · exact h x hold
  · exact hnot (hpx.trans hxc)

/-- The forest stays ordered if those that come have no parent and are not above `p`. -/
theorem Ordered.relink (h : f.Ordered) (hp : f.Allocated p) (hnodup : l.Nodup)
    (hallocated : ∀ x ∈ l, f.Allocated x)
    (hl : ∀ x ∈ l, x ∈ f.children p ∨ (f.parent? x = none ∧ ¬ Relation.ReflTransGen f.Parent p x)) :
    (f.relink p l).Ordered := by
  have hparent := parent?_relink hallocated p
  have hchildren := children_relink hp l
  refine ⟨fun q x => ?_, fun q => ?_, acyclic_of_links (p := p) h.acyclic fun y z hyz => ?_⟩
  · have hcomes : x ∈ l → f.parent? x = some p ∨ f.parent? x = none := fun hx =>
      (hl x hx).imp (h.linked p x).mp And.left
    have hold := h.linked p x
    have hother := h.linked q x
    rw [hchildren, hparent]
    grind
  · rw [hchildren]
    split
    · exact hnodup
    · exact h.nodup q
  · rw [Parent, hparent] at hyz
    by_cases hy : y ∈ l
    · rw [if_pos hy] at hyz
      obtain rfl := Option.some.inj hyz
      exact (hl y hy).imp (h.linked p y).mp fun hcomes => ⟨hcomes.2, rfl⟩
    · rw [if_neg hy] at hyz
      split at hyz
      · cases hyz
      · exact .inl hyz

end Packrat.Forest
