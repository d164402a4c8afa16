import Packrat.Proofs.Forest.Calls

/-! What attaching accepts, and what it does.

A node is accepted under `p` if it has no parent and is neither `p` nor above it, whatever root the
check compares it with. Then `p` has other children, those that came have the parent `p`, the one
that was replaced has none, and all else is as it was (`Relinked`). -/
namespace Packrat.Forest
variable {α β : Type} {f g : Forest α} {p : NodeId} {l come gone : List NodeId}

/-- In `g` the children of `p` are those of `l`, the nodes of `come` have the parent `p` and the
other nodes of `gone` none. All else is as it is in `f`. -/
structure Relinked (f g : Forest α) (p : NodeId) (l come gone : List NodeId) : Prop where
  size : g.size = f.size
  value : ∀ x, (g.node? x).map Node.value = (f.node? x).map Node.value
  children : ∀ q, g.children q = if q = p then l else f.children q
  parent : ∀ x, g.parent? x = if x ∈ come then some p else if x ∈ gone then none else f.parent? x

/-- The new list has those that come and those that were there and do not go. -/
theorem Ordered.relinked (h : f.Ordered) (hp : f.Allocated p) (hcome : ∀ x ∈ come, f.Allocated x)
    (hgone : ∀ x ∈ gone, x ∈ f.children p)
    (hl : ∀ x, x ∈ l ↔ x ∈ come ∨ (x ∈ f.children p ∧ x ∉ gone)) :
    Relinked f (f.relink p l) p l come gone where
  size := size_relink f p l
  value x := by
    rw [node?_relink]
    cases f.node? x <;> rfl
  children := children_relink hp l
  parent x := by
    have hallocated : ∀ x ∈ l, f.Allocated x := fun x hx =>
      ((hl x).mp hx).elim (hcome x) fun hold => h.allocated_child hold.1
    have hmem := hl x
    have hleaves := hgone x
    have hlinked := h.linked p x
    rw [parent?_relink hallocated]
    grind

theorem Outcome.ok_iff {can : Prop} {b : β} {r : Except ForestError β × Forest α}
    (h : Outcome f can b g r) : r.1 = .ok b ↔ can := by
  cases h with
  | done hcan => exact iff_of_true rfl hcan
  | refused hcannot => exact iff_of_false nofun hcannot

theorem Outcome.of_ok {can : Prop} {b : β} {r : Except ForestError β × Forest α}
    (h : Outcome f can b g r) (hr : r.1 = .ok b) : can ∧ r.2 = g := by
  cases h with
  | done hcan => exact ⟨hcan, rfl⟩
  | refused => cases hr

section
variable {c old new : NodeId} {cs : List NodeId} (h : f.Ordered) (hp : f.Allocated p)
include h hp

theorem relinked_add (hcs : ∀ c ∈ cs, f.Allocated c) :
    Relinked f (f.relink p (f.children p ++ cs)) p (f.children p ++ cs) cs [] :=
  h.relinked hp hcs nofun fun x => by simp [or_comm]

theorem relinked_insert (hc : f.Allocated c) {i : Nat} (hi : i ≤ (f.children p).length) :
    Relinked f (f.relink p ((f.children p).insertIdx i c)) p ((f.children p).insertIdx i c) [c]
    [] :=
  h.relinked hp (List.forall_mem_singleton.mpr hc) nofun fun x => by simp [List.mem_insertIdx hi]

theorem relinked_replace (hnew : f.Allocated new) (hold : old ∈ f.children p) :
    Relinked f (f.relink p ((f.children p).replace old new)) p ((f.children p).replace old new)
    [new] [old] := by
  refine h.relinked hp (List.forall_mem_singleton.mpr hnew) (List.forall_mem_singleton.mpr hold)
    fun x => ?_
  rw [(replace_perm hold new).mem_iff, List.mem_cons, (h.nodup p).mem_erase_iff]
  simp [and_comm]

end

/-- Nodes of a forest that calls lead to are attached under `p` where an index is no larger than the
number of children and each of them, none twice, has no parent and is neither `p` nor above `p`; a
node can also take its own place. Nothing else is accepted. -/
theorem Reachable.attaches_exactly (hf : f.Reachable) (hp : f.Allocated p) :
    (∀ c i, f.Allocated c →
      ((Editing.insert p c i f).1 = .ok () ↔
        i ≤ (f.children p).length ∧ f.parent? c = none ∧ ¬ Relation.ReflTransGen f.Parent p c) ∧
      ((Editing.insert p c i f).1 = .ok () →
        Relinked f (Editing.insert p c i f).2 p ((f.children p).insertIdx i c) [c] [])) ∧
    (∀ cs, (∀ c ∈ cs, f.Allocated c) →
      ((Editing.add p cs f).1 = .ok () ↔
        cs.Nodup ∧ ∀ c ∈ cs, f.parent? c = none ∧ ¬ Relation.ReflTransGen f.Parent p c) ∧
      ((Editing.add p cs f).1 = .ok () →
      Relinked f (Editing.add p cs f).2 p (f.children p ++ cs) cs [])) ∧
    ∀ old new, f.Allocated old → f.Allocated new →
      ((Editing.replaceChild p old new f).1 = .ok () ↔
        old ∈ f.children p ∧
        (new = old ∨ f.parent? new = none ∧ ¬ Relation.ReflTransGen f.Parent p new)) ∧
      ((Editing.replaceChild p old new f).1 = .ok () →
        Relinked f (Editing.replaceChild p old new f).2 p ((f.children p).replace old new) [new]
        [old]) := by
  have h := hf.ordered
  refine ⟨fun c i hc => ?insert, fun cs hcs => ?add, fun old new _ hnew => ?replace⟩
  case insert =>
    have houtcome := Editing.insert_outcome h hp hc i
    refine ⟨houtcome.ok_iff, fun hok => ?_⟩
    obtain ⟨hcan, hleft⟩ := houtcome.of_ok hok
    rw [hleft]
    exact relinked_insert h hp hc hcan.1
  case add =>
    have houtcome := Editing.add_outcome h hp hcs
    refine ⟨houtcome.ok_iff, fun hok => ?_⟩
    rw [(houtcome.of_ok hok).2]
    exact relinked_add h hp hcs
  case replace =>
    have houtcome := Editing.replaceChild_outcome h hp old hnew
    refine ⟨houtcome.ok_iff, fun hok => ?_⟩
    obtain ⟨hcan, hleft⟩ := houtcome.of_ok hok
    rw [hleft]
    exact relinked_replace h hp hnew hcan.1

/-- Node 3 is not attached and has node 4 below it. It can come between the children of node 0, take
the place of the first of them or go under the second, but not under node 4. -/
theorem Reachable.attaches_exactly_detached :
    let f : Forest String :=
  ⟨#[⟨"a", none, [⟨1⟩, ⟨2⟩]⟩, ⟨"b", some ⟨0⟩, []⟩, ⟨"c", some ⟨0⟩, []⟩, ⟨"d", none, [⟨4⟩]⟩,
      ⟨"e", some ⟨3⟩, []⟩]⟩
    f.Reachable ∧ (∀ i < 5, f.Allocated ⟨i⟩) ∧
      Relinked f (Editing.insert ⟨0⟩ ⟨3⟩ 1 f).2 ⟨0⟩ [⟨1⟩, ⟨3⟩, ⟨2⟩] [⟨3⟩] [] ∧
      Relinked f (Editing.replaceChild ⟨0⟩ ⟨1⟩ ⟨3⟩ f).2 ⟨0⟩ [⟨3⟩, ⟨2⟩] [⟨3⟩] [⟨1⟩] ∧
      Relinked f (Editing.add ⟨2⟩ [⟨3⟩] f).2 ⟨2⟩ [⟨3⟩] [⟨3⟩] [] ∧
      (Editing.add ⟨4⟩ [⟨3⟩] f).1 = .error (.wouldCycle ⟨4⟩ ⟨3⟩) ∧
      Relation.ReflTransGen f.Parent ⟨4⟩ ⟨3⟩ := by
  intro f
  have hone : Reachable _ := Reachable.empty.call (.newNode "a") (by decide)
  have htwo := hone.call (.newChild ⟨0⟩ "b") (by decide)
  have hthree := htwo.call (.newChild ⟨0⟩ "c") (by decide)
  have hfour := hthree.call (.newNode "d") (by decide)
  have hf : f.Reachable := hfour.call (.newChild ⟨3⟩ "e") (by decide)
  have hthere : ∀ i < 5, f.Allocated ⟨i⟩ := by decide
  obtain ⟨hinsert, _, hreplace⟩ := hf.attaches_exactly (hthere 0 (by decide))
  obtain ⟨_, hadd, _⟩ := hf.attaches_exactly (hthere 2 (by decide))
  obtain ⟨_, hrefused, _⟩ := hf.attaches_exactly (hthere 4 (by decide))
  have hthird : ∀ c ∈ [(⟨3⟩ : NodeId)], f.Allocated c := by decide
  have herror : (Editing.add ⟨4⟩ [⟨3⟩] f).1 = .error (.wouldCycle ⟨4⟩ ⟨3⟩) := by rfl
  have habove : Relation.ReflTransGen f.Parent ⟨4⟩ ⟨3⟩ := by
    by_contra hnot
    have hok := (hrefused [⟨3⟩] hthird).1.mpr ⟨List.nodup_singleton _,
      List.forall_mem_singleton.mpr ⟨by rfl, hnot⟩⟩
    rw [herror] at hok
    cases hok
  exact ⟨hf, hthere, (hinsert ⟨3⟩ 1 (hthere 3 (by decide))).2 (by rfl),
    (hreplace ⟨1⟩ ⟨3⟩ (hthere 1 (by decide)) (hthere 3 (by decide))).2 (by rfl),
    (hadd [⟨3⟩] hthird).2 (by rfl), herror, habove⟩

end Packrat.Forest
