import Packrat.Proofs.Forest.Edits

/-! Forests that calls lead to.

A call that is given nodes of the forest keeps it ordered, and leaves it as it was where it fails or
finds nothing to remove (`Kept`). So every forest that such calls make of the empty one is ordered,
whichever of them fail. -/
namespace Packrat.Forest
open Editing (bind_run attach_run change_run ask_node)
variable {α β : Type} {f : Forest α} {p x : NodeId}

/-- A call of an edit. -/
inductive Call (α : Type) where
  | newNode (value : α)
  | newChild (parent : NodeId) (value : α)
  | setValue (node : NodeId) (value : α)
  | add (parent : NodeId) (children : List NodeId)
  | insert (parent child : NodeId) (index : Nat)
  | remove (parent child : NodeId)
  | replaceChild (parent old new : NodeId)
  | clear (node : NodeId)

/-- What a call returns. -/
inductive Reply where
  | done
  | made (node : NodeId)
  | removed (was : Bool)
deriving DecidableEq

namespace Call

/-- The nodes that a call is given. -/
def nodes : Call α → List NodeId
  | newNode _ => []
  | newChild parent _ => [parent]
  | setValue node _ => [node]
  | add parent children => parent :: children
  | insert parent child _ => [parent, child]
  | remove parent child => [parent, child]
  | replaceChild parent old new => [parent, old, new]
  | clear node => [node]

def run : Call α → Editing α Reply
  | newNode value => .made <$> Editing.newNode value
  | newChild parent value => .made <$> Editing.newChild parent value
  | setValue node value => (fun _ => .done) <$> Editing.setValue node value
  | add parent children => (fun _ => .done) <$> Editing.add parent children
  | insert parent child index => (fun _ => .done) <$> Editing.insert parent child index
  | remove parent child => .removed <$> Editing.remove parent child
  | replaceChild parent old new => (fun _ => .done) <$> Editing.replaceChild parent old new
  | clear node => (fun _ => .done) <$> Editing.clear node

end Call

/-- The forests that calls lead to, each given nodes that are there by then. -/
inductive Reachable : Forest α → Prop where
  | empty : Reachable {}
  | call {f : Forest α} (call : Call α) : f.Reachable → (∀ x ∈ call.nodes, f.Allocated x) →
      Reachable (call.run f).2

/-- The result of a call: an ordered forest, and the one that there was if the call did nothing. -/
structure Kept (f : Forest α) (r : Except ForestError Reply × Forest α) : Prop where
  ordered : r.2.Ordered
  refused : ∀ e, r.1 = .error e → e.Refusal ∧ r.2 = f
  unremoved : r.1 = .ok (.removed false) → r.2 = f

/-! ### Nodes that are made -/

theorem newNode_fresh (f : Forest α) : ¬ f.Allocated ⟨f.size⟩ := Nat.lt_irrefl _

theorem node?_newNode (f : Forest α) (value : α) (x : NodeId) :
    (f.newNode value).1.node? x = if x = ⟨f.size⟩ then some { value } else f.node? x := by
  have hpush : (f.newNode value).1.node? x = if x.index = f.size then some { value }
      else f.node? x :=
    Array.getElem?_push
  rw [hpush]
  by_cases hx : x.index = f.size
  · rw [if_pos hx, if_pos (congrArg NodeId.mk hx)]
  · rw [if_neg hx, if_neg fun h : x = ⟨f.size⟩ => hx (congrArg NodeId.index h)]

theorem allocated_newNode (f : Forest α) (value : α) (x : NodeId) :
    (f.newNode value).1.Allocated x ↔ f.Allocated x ∨ x = ⟨f.size⟩ := by
  simp only [allocated_iff, node?_newNode]
  split <;> simp [*]

theorem parent?_newNode (f : Forest α) (value : α) (x : NodeId) :
    (f.newNode value).1.parent? x = f.parent? x := by
  rw [parent?, node?_newNode]
  by_cases hx : x = ⟨f.size⟩
  · rw [if_pos hx, hx, parent?_of_not_allocated f.newNode_fresh]
    rfl
  · rw [if_neg hx]
    rfl

theorem children_newNode (f : Forest α) (value : α) (x : NodeId) :
    (f.newNode value).1.children x = f.children x := by
  rw [children, node?_newNode]
  split_ifs with hx
  · rw [hx, children_of_not_allocated f.newNode_fresh]
  · rfl

theorem Ordered.newNode (h : f.Ordered) (value : α) : (f.newNode value).1.Ordered :=
  h.congr (parent?_newNode f value) (children_newNode f value)

theorem newChild_run (h : f.Ordered) (hp : f.Allocated p) (value : α) : Editing.newChild p value f =
    (.ok ⟨f.size⟩, (f.newNode value).1.relink p (f.children p ++ [⟨f.size⟩])) := by
  have hallocated := allocated_newNode f value
  have hmade : Editing.newNode value f = (.ok ⟨f.size⟩, (f.newNode value).1) := rfl
  have hplaced : Editing.attached (f.newNode value).1 p ⟨f.size⟩ (· ++ [⟨f.size⟩]) =
      (f.newNode value).1.relink p (f.children p ++ [⟨f.size⟩]) := by
    rw [← children_newNode f value]
    exact Editing.attached_eq (h.newNode value)
      fun x => by rw [List.mem_append, List.mem_singleton, or_comm]
  unfold Editing.newChild
  rw [bind_run hmade,
    bind_run (attach_run ((hallocated p).mpr (.inl hp)) ((hallocated _).mpr (.inr rfl)) _), hplaced]
  rfl

/-- A node that was just made can be attached. -/
theorem Ordered.newNode_attachable (h : f.Ordered) (hp : f.Allocated p) (value : α) :
    (f.newNode value).1.Attachable p ⟨f.size⟩ := by
  refine ⟨(parent?_newNode ..).trans (parent?_of_not_allocated f.newNode_fresh), fun hup => ?_⟩
  rcases hup.cases_tail with heq | ⟨y, _, hy⟩
  · exact f.newNode_fresh (heq ▸ hp)
  · exact f.newNode_fresh (h.allocated_parent ((parent?_newNode ..).symm.trans hy))

theorem Ordered.newChild (h : f.Ordered) (hp : f.Allocated p) (value : α) :
    ((f.newNode value).1.relink p (f.children p ++ [⟨f.size⟩])).Ordered := by
  have hmade := allocated_newNode f value
  rw [← children_newNode f value]
  exact (h.newNode value).relink_cons ((hmade p).mpr (.inl hp)) (List.perm_append_singleton ..)
    (List.Sublist.refl _) ((hmade _).mpr (.inr rfl)) (h.newNode_attachable hp value)

theorem Ordered.setValue (h : f.Ordered) (x : NodeId) (value : α) :
    (f.modify x fun n => { n with value }).Ordered := by
  refine h.congr (fun y => ?_) fun y => ?_
  · rw [parent?, node?_modify, parent?]
    cases f.node? y with
    | none => rfl
    | some n => by_cases hy : y = x <;> simp [hy]
  · rw [children, node?_modify, children]
    cases f.node? y with
    | none => rfl
    | some n => by_cases hy : y = x <;> simp [hy]

/-! ### What a call keeps -/

/-- The result of a call that succeeds, unless it found nothing to remove. -/
theorem Kept.done {g : Forest α} {reply : Reply} (hg : g.Ordered)
    (hreply : reply ≠ .removed false) : Kept f (.ok reply, g) where
  ordered := hg
  refused := nofun
  unremoved heq := absurd (Except.ok.inj heq) hreply

theorem Kept.unchanged {o : Except ForestError Reply} (h : f.Ordered)
    (ho : ∀ e, o = .error e → e.Refusal) : Kept f (o, f) :=
  ⟨h, fun e he => ⟨ho e he, rfl⟩, fun _ => rfl⟩

theorem Kept.of_outcome {e : Editing α Unit} {can : Prop} {g : Forest α} (h : f.Ordered)
    (ho : Outcome f can () g (e f)) (hg : can → g.Ordered) :
    Kept f (((fun _ => .done) <$> e : Editing α Reply) f) := by
  rw [Editing.map_run]
  generalize e f = r at ho
  cases ho with
  | done hcan => exact .done (hg hcan) nofun
  | refused _ hrefusal => exact .unchanged h fun _ heq => Except.error.inj heq ▸ hrefusal

/-- What one call keeps. -/
theorem Ordered.call (h : f.Ordered) (call : Call α) (hnodes : ∀ x ∈ call.nodes, f.Allocated x) :
    Kept f (call.run f) := by
  cases call with
  | newNode value => exact .done (h.newNode value) nofun
  | newChild p value =>
    have hp : f.Allocated p := hnodes p (List.mem_cons_self ..)
    rw [Call.run, Editing.map_run, newChild_run h hp]
    exact .done (h.newChild hp value) nofun
  | setValue x value =>
    rw [Call.run, Editing.map_run, Editing.setValue, change_run (hnodes x (List.mem_cons_self ..))]
    exact .done (h.setValue x value) nofun
  | add p cs =>
    have hp : f.Allocated p := hnodes p (List.mem_cons_self ..)
    have hcs : ∀ c ∈ cs, f.Allocated c := fun c hc => hnodes c (List.mem_cons_of_mem _ hc)
    refine .of_outcome h (Editing.add_outcome h hp hcs) fun hcan => ?_
    exact h.relink_perm hp List.perm_append_comm (List.Sublist.refl _) hcan.1 fun c hc =>
      ⟨hcs c hc, hcan.2 c hc⟩
  | insert p c i =>
    have hp : f.Allocated p := hnodes p (List.mem_cons_self ..)
    have hc : f.Allocated c := hnodes c (by simp [Call.nodes])
    refine .of_outcome h (Editing.insert_outcome h hp hc i) fun hcan => ?_
    exact h.relink_cons hp (List.perm_insertIdx c _ hcan.1) (List.Sublist.refl _) hc hcan.2
  | remove p c =>
    have hp : f.Allocated p := hnodes p (List.mem_cons_self ..)
    rw [Call.run, Editing.map_run, Editing.remove_run h hp]
    split
    · exact .done (h.relink_perm hp (List.Perm.refl _) List.erase_sublist List.nodup_nil nofun)
        nofun
    · exact .unchanged h nofun
  | replaceChild p old new =>
    have hp : f.Allocated p := hnodes p (List.mem_cons_self ..)
    have hnew : f.Allocated new := hnodes new (by simp [Call.nodes])
    refine .of_outcome h (Editing.replaceChild_outcome h hp old hnew) fun ⟨hold, hcan⟩ => ?_
    rcases hcan with rfl | hattachable
    · rw [replace_self, relink_children h]
      exact h
    · exact h.relink_cons hp (replace_perm hold new) List.erase_sublist hnew hattachable
  | clear p =>
    have hp : f.Allocated p := hnodes p (List.mem_cons_self ..)
    rw [Call.run, Editing.map_run, Editing.clear_run h hp]
    exact .done (h.relink_perm hp (List.Perm.refl _) (List.nil_sublist _) List.nodup_nil nofun)
      nofun

theorem Ordered.empty : ({} : Forest α).Ordered where
  linked p x := by simp [children, parent?, node?]
  nodup p := List.nodup_nil
  acyclic x hx := by
    obtain ⟨p, hp, _⟩ := Relation.TransGen.head'_iff.mp hx
    cases hp

/-- Every forest that calls lead to is ordered. -/
theorem Reachable.ordered (hf : f.Reachable) : f.Ordered := by
  induction hf with
  | empty => exact .empty
  | call call _ hnodes ih => exact (ih.call call hnodes).ordered

/-! ### What an ordered forest shows -/

/-- No node is in the lists of children twice. -/
theorem Ordered.nodup_all (h : f.Ordered) : (f.nodes.toList.flatMap (·.children)).Nodup := by
  have hchildren : ∀ i (hi : i < f.nodes.toList.length),
      f.nodes.toList[i].children = f.children ⟨i⟩ := fun i hi =>
    (children_of_node? (Array.getElem?_eq_getElem (Array.length_toList ▸ hi))).symm
  refine List.nodup_flatMap.mpr ⟨fun n hn => ?_, List.pairwise_iff_getElem.mpr
    fun i j hi hj hij x hxi hxj => ?_⟩
  · obtain ⟨i, hi, rfl⟩ := List.getElem_of_mem hn
    rw [hchildren]
    exact h.nodup _
  · have hparenti := (h.linked ⟨i⟩ x).mp (by rw [← hchildren i hi]; exact hxi)
    have hparentj := (h.linked ⟨j⟩ x).mp (by rw [← hchildren j hj]; exact hxj)
    cases Option.some.inj (hparenti.symm.trans hparentj)
    exact Nat.lt_irrefl _ hij

/-- A node with a parent has one position among its children. -/
theorem Ordered.position (h : f.Ordered) {c : NodeId} (hc : f.parent? c = some p) :
    ∃ i, f.position? c = some i ∧ ∀ j, (f.children p)[j]? = some c ↔ j = i := by
  have hmem : c ∈ f.children p := (h.linked p c).mpr hc
  obtain ⟨i, hi⟩ := Option.isSome_iff_exists.mp (List.isSome_idxOf?.mpr hmem)
  obtain ⟨hlt, hget, _⟩ := List.idxOf?_eq_some_iff.mp hi
  have hat : (f.children p)[i]? = some c := hget ▸ List.getElem?_eq_getElem hlt
  refine ⟨i, by rw [position?, hc, Option.bind_some, hi], fun j => ?_⟩
  rw [← hat, eq_comm, List.getElem?_inj hlt (h.nodup p), eq_comm]

/-- A forest that calls lead to has links that go both ways, no node twice among the children and no
node above itself. So going up from a node ends at one without a parent, and the position of a child
is the only one it has. A call that fails refuses the edit, and changes nothing; nor does one that
finds nothing to remove. -/
theorem Reachable.ordered_and_atomic (hf : f.Reachable) :
    (∀ p c, c ∈ f.children p ↔ f.parent? c = some p) ∧
    (f.nodes.toList.flatMap (·.children)).Nodup ∧
    (∀ x, ¬ Relation.TransGen f.Parent x x) ∧
    (∀ x, Relation.ReflTransGen f.Parent x (f.root x) ∧ f.parent? (f.root x) = none) ∧
    (∀ p c, f.parent? c = some p → ∃ i, f.position? c = some i ∧ ∀ j, (f.children p)[j]? = some c ↔
      j = i) ∧
    ∀ call : Call α, (∀ x ∈ call.nodes, f.Allocated x) →
      (∀ e, (call.run f).1 = .error e → e.Refusal ∧ (call.run f).2 = f) ∧
      ((call.run f).1 = .ok (.removed false) → (call.run f).2 = f) := by
  have h := hf.ordered
  refine ⟨h.linked, h.nodup_all, h.acyclic, h.root, fun p c hc => h.position hc,
    fun call hnodes => ?_⟩
  have hkept := h.call call hnodes
  exact ⟨hkept.refused, hkept.unremoved⟩

/-- The call fails at its last node, and the one before stays detached. -/
theorem Reachable.ordered_and_atomic_add :
    ∃ f : Forest String, f.Reachable ∧ f.children ⟨0⟩ = [⟨1⟩] ∧
    ((Call.add ⟨1⟩ [⟨2⟩, ⟨0⟩]).run f).1 = .error (.wouldCycle ⟨1⟩ ⟨0⟩) ∧
    ((Call.add ⟨1⟩ [⟨2⟩, ⟨0⟩]).run f).2 = f ∧ f.root ⟨1⟩ = ⟨0⟩ ∧ f.position? ⟨1⟩ = some 0 := by
  have hone : Reachable _ := Reachable.empty.call (.newNode "a") (by decide)
  have htwo := hone.call (.newChild ⟨0⟩ "b") (by decide)
  have hthree := htwo.call (.newNode "c") (by decide)
  have hfails :=
    (hthree.ordered_and_atomic.2.2.2.2.2 (.add ⟨1⟩ [⟨2⟩, ⟨0⟩]) (by decide)).1 _ (by rfl)
  exact ⟨_, hthree, by rfl, by rfl, hfails.2, by rfl, by rfl⟩

end Packrat.Forest
