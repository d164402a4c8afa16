import Packrat.Proofs.Forest.Attaching
import Mathlib.Data.List.InsertIdx

/-! Edits of the links are undone by edits.

A node that gets its old list of children back leaves the forest as it was, if all that came in
between had no parent before (`Ordered.relink_back`). The edit that gives it back is accepted, for
what it attaches was a child and is one no more, and with other children a node has nothing above it
that was not above it before (`Ordered.above_relink`). -/
namespace Packrat

namespace Forest
variable {α : Type} {f : Forest α} {p c y old new : NodeId} {l : List NodeId} {i : Nat}

/-! ### Lists of children -/

theorem erase_insertIdx (hi : i ≤ l.length) (hc : c ∉ l) : (l.insertIdx i c).erase c = l := by
  induction l generalizing i with
  | nil =>
    obtain rfl : i = 0 := Nat.le_zero.mp hi
    simp
  | cons x rest ih =>
    have hx : x ≠ c := fun h => hc (h ▸ List.mem_cons_self ..)
    cases i with
    | zero => simp
    | succ i => simp [hx, ih (Nat.le_of_succ_le_succ hi) fun h => hc (List.mem_cons_of_mem _ h)]

theorem insertIdx_erase (hl : l.Nodup) (hc : l[i]? = some c) : (l.erase c).insertIdx i c = l := by
  obtain ⟨hlt, rfl⟩ := List.getElem?_eq_some_iff.mp hc
  rw [← List.eraseIdx_idxOf_eq_erase, hl.idxOf_getElem i hlt, List.insertIdx_eraseIdx_getElem hlt]

theorem replace_replace (hnew : new ∉ l) : (l.replace old new).replace new old = l := by
  induction l with
  | nil => rfl
  | cons x rest ih => grind

/-! ### The list of children that a node had before -/

theorem children_relink_self (hp : f.Allocated p) (l : List NodeId) :
    (f.relink p l).children p = l := by
  rw [children_relink hp, if_pos rfl]

/-- With other children a node has nothing above it that was not above it before. -/
theorem above_relink (hl : ∀ x ∈ l, f.Allocated x) (hafter : (f.relink p l).Ordered)
    (hy : Relation.ReflTransGen (f.relink p l).Parent p y) :
    Relation.ReflTransGen f.Parent p y := by
  induction hy with
  | refl => exact .refl
  | tail hup hlast ih =>
    -- A new link leads to `p`, and a path from `p` back to `p` would be a cycle.
    have hparent := hlast
    rw [Parent, parent?_relink hl] at hparent
    split at hparent
    · obtain rfl := Option.some.inj hparent
      exact absurd (Relation.TransGen.tail' hup hlast) (hafter.acyclic p)
    · split at hparent
      · cases hparent
      · exact ih.tail hparent

section
variable (h : f.Ordered)
include h

/-- With its old children back a node leaves all as it was, if those that had come had no parent
before. -/
theorem Ordered.relink_back (hp : f.Allocated p)
    (hl : ∀ x ∈ l, x ∈ f.children p ∨ f.parent? x = none) :
    (f.relink p l).relink p (f.children p) = f := by
  refine ext_node? fun x => ?_
  rw [node?_relink, node?_relink, children_relink_self hp]
  cases hx : f.node? x with
  | none => rfl
  | some n =>
    have hlinked := h.linked p x
    have hcame := hl x
    rw [parent?_of_node? hx] at hlinked hcame
    have hparent : (if x ∈ f.children p then some p else if x ∈ l then none else
        if x ∈ l then some p else if x ∈ f.children p then none else n.parent) =
        n.parent := by grind
    have hchildren : (if x = p then f.children p else if x = p then l else n.children) =
        n.children := by
      by_cases heq : x = p
      · rw [if_pos heq, ← heq, children_of_node? hx]
      · rw [if_neg heq, if_neg heq]
    simp only [Option.map_some, hparent, hchildren]

/-- What was a child and is one no more can be attached again. -/
theorem Ordered.attachable_again (hl : ∀ x ∈ l, f.Allocated x) (hafter : (f.relink p l).Ordered)
    (hc : c ∈ f.children p) (hgone : c ∉ l) : (f.relink p l).Attachable p c := by
  refine ⟨by rw [parent?_relink hl, if_neg hgone, if_pos hc], fun hup => ?_⟩
  exact h.acyclic p (Relation.TransGen.tail' (above_relink hl hafter hup) ((h.linked p c).mp hc))

end

end Forest

namespace Editing
open Forest
variable {α : Type} {f : Forest α} {p c old new : NodeId} {i : Nat}

/-! ### Each edit and the one that undoes it -/

section
variable (h : f.Ordered) (hp : f.Allocated p)
include h hp

theorem insert_remove (hc : f.Allocated c) (hok : (insert p c i f).1 = .ok ()) :
    remove p c (insert p c i f).2 = (.ok true, f) := by
  obtain ⟨⟨hi, hattachable⟩, hleft⟩ := (insert_outcome h hp hc i).of_ok hok
  have hmem : ∀ x, x ∈ (f.children p).insertIdx i c ↔ x = c ∨ x ∈ f.children p :=
    fun x => List.mem_insertIdx hi
  have hafter : (f.relink p ((f.children p).insertIdx i c)).Ordered :=
    h.relink_cons hp (List.perm_insertIdx c _ hi) (List.Sublist.refl _) hc hattachable
  have hnew : c ∉ f.children p :=
    fun hold => nomatch hattachable.1.symm.trans ((h.linked p c).mp hold)
  have hcame : ∀ x ∈ (f.children p).insertIdx i c, x ∈ f.children p ∨ f.parent? x = none := by
    intro x hx
    rcases (hmem x).mp hx with rfl | hold
    · exact .inr hattachable.1
    · exact .inl hold
  rw [hleft, remove_run hafter (hp.of_size (size_relink ..)), children_relink_self hp,
    if_pos ((hmem c).mpr (.inl rfl)), erase_insertIdx hi hnew, h.relink_back hp hcame]

theorem remove_insert (hc : (f.children p)[i]? = some c) :
    (remove p c f).1 = .ok true ∧ insert p c i (remove p c f).2 = (.ok (), f) := by
  have hmem : c ∈ f.children p := List.mem_of_getElem? hc
  have hstay : ∀ x ∈ (f.children p).erase c, x ∈ f.children p :=
    fun x hx => List.mem_of_mem_erase hx
  have hafter : (f.relink p ((f.children p).erase c)).Ordered :=
    h.relink_perm hp (List.Perm.refl _) List.erase_sublist List.nodup_nil nofun
  have hback : (f.relink p ((f.children p).erase c)).relink p
      (((f.children p).erase c).insertIdx i c) = f := by
    rw [insertIdx_erase (h.nodup p) hc, h.relink_back hp fun x hx => .inl (hstay x hx)]
  have hlt : i < (f.children p).length := (List.getElem?_eq_some_iff.mp hc).1
  have hlength : i ≤ ((f.children p).erase c).length := by
    rw [List.length_erase_of_mem hmem]
    omega
  have hattachable := h.attachable_again (fun x hx => h.allocated_child (hstay x hx)) hafter hmem
    fun hleft => ((h.nodup p).mem_erase_iff.mp hleft).1 rfl
  have houtcome := insert_outcome hafter (hp.of_size (size_relink ..))
    ((h.allocated_child hmem).of_size (size_relink ..)) i
  rw [children_relink_self hp, hback] at houtcome
  have hok := houtcome.ok_iff.mpr ⟨hlength, hattachable⟩
  rw [remove_run h hp, if_pos hmem]
  exact ⟨rfl, Prod.ext hok (houtcome.of_ok hok).2⟩

theorem replaceChild_replaceChild (hnew : f.Allocated new)
    (hok : (replaceChild p old new f).1 = .ok ()) :
    replaceChild p new old (replaceChild p old new f).2 = (.ok (), f) := by
  obtain ⟨⟨hold, hcan⟩, hleft⟩ := (replaceChild_outcome h hp old hnew).of_ok hok
  rcases hcan with rfl | hattachable
  · rw [replace_self, relink_children h] at hleft
    rw [hleft]
    exact Prod.ext hok hleft
  have hfresh : new ∉ f.children p :=
    fun hmem => nomatch hattachable.1.symm.trans ((h.linked p new).mp hmem)
  have hmem : ∀ x, x ∈ (f.children p).replace old new ↔ x = new ∨ (x ≠ old ∧ x ∈ f.children p) := by
    intro x
    rw [(replace_perm hold new).mem_iff, List.mem_cons, (h.nodup p).mem_erase_iff]
  have hafter : (f.relink p ((f.children p).replace old new)).Ordered :=
    h.relink_cons hp (replace_perm hold new) List.erase_sublist hnew hattachable
  have hallocated : ∀ x ∈ (f.children p).replace old new, f.Allocated x := by
    intro x hx
    rcases (hmem x).mp hx with rfl | ⟨_, hx⟩
    · exact hnew
    · exact h.allocated_child hx
  have hcame : ∀ x ∈ (f.children p).replace old new, x ∈ f.children p ∨ f.parent? x = none := by
    intro x hx
    rcases (hmem x).mp hx with rfl | ⟨_, hx⟩
    · exact .inr hattachable.1
    · exact .inl hx
  have hgone : old ∉ (f.children p).replace old new := by
    intro hx
    rcases (hmem old).mp hx with rfl | ⟨hne, _⟩
    · exact hfresh hold
    · exact hne rfl
  have hback :
      (f.relink p ((f.children p).replace old new)).relink p
      (((f.children p).replace old new).replace new old) = f := by
    rw [replace_replace hfresh, h.relink_back hp hcame]
  have hagain := h.attachable_again hallocated hafter hold hgone
  have houtcome := replaceChild_outcome hafter (hp.of_size (size_relink ..)) new
    ((h.allocated_child hold).of_size (size_relink ..))
  rw [children_relink_self hp, hback] at houtcome
  have hok' := houtcome.ok_iff.mpr ⟨(hmem new).mpr (.inl rfl), .inr hagain⟩
  rw [hleft]
  exact Prod.ext hok' (houtcome.of_ok hok').2

end

end Editing

/-- In a forest that calls lead to, what is inserted is removed again, a child that is removed is
inserted again where it was, and what replaces a child is replaced by it again. Each time the second
edit is accepted, and the forest is the one from before the first. -/
theorem Forest.Reachable.undoes {α : Type} {f : Forest α} (hf : f.Reachable) :
    (∀ p c i, f.Allocated p → f.Allocated c → (Editing.insert p c i f).1 = .ok () →
      Editing.remove p c (Editing.insert p c i f).2 = (.ok true, f)) ∧
    (∀ p c i, f.Allocated p → (f.children p)[i]? = some c → (Editing.remove p c f).1 = .ok true ∧
      Editing.insert p c i (Editing.remove p c f).2 = (.ok (), f)) ∧
    ∀ p old new, f.Allocated p → f.Allocated old → f.Allocated new →
    (Editing.replaceChild p old new f).1 = .ok () →
      Editing.replaceChild p new old (Editing.replaceChild p old new f).2 = (.ok (), f) := by
  have h := hf.ordered
  refine ⟨fun p c i hp hc hok => ?insert, fun p c i hp hc => ?remove,
    fun p old new hp _ hnew hok => ?replace⟩
  case insert => exact Editing.insert_remove h hp hc hok
  case remove => exact Editing.remove_insert h hp hc
  case replace => exact Editing.replaceChild_replaceChild h hp hnew hok

/-- Node 3 comes between the children of node 0 and goes again; the second of them goes and comes
back; and node 3 takes the place of the first and gives it back. -/
theorem Forest.Reachable.undoes_detached :
    let f : Forest String :=
  ⟨#[⟨"a", none, [⟨1⟩, ⟨2⟩]⟩, ⟨"b", some ⟨0⟩, []⟩, ⟨"c", some ⟨0⟩, []⟩, ⟨"d", none, []⟩]⟩
    f.Reachable ∧ f.Allocated ⟨0⟩ ∧ f.Allocated ⟨1⟩ ∧ f.Allocated ⟨3⟩ ∧
      ((Editing.insert ⟨0⟩ ⟨3⟩ 1 f).1 = .ok () ∧ (Editing.insert ⟨0⟩ ⟨3⟩ 1 f).2.children ⟨0⟩ =
      [⟨1⟩, ⟨3⟩, ⟨2⟩] ∧ Editing.remove ⟨0⟩ ⟨3⟩ (Editing.insert ⟨0⟩ ⟨3⟩ 1 f).2 = (.ok true, f)) ∧
      ((f.children ⟨0⟩)[1]? = some ⟨2⟩ ∧ Editing.insert ⟨0⟩ ⟨2⟩ 1 (Editing.remove ⟨0⟩ ⟨2⟩ f).2 =
        (.ok (), f)) ∧
      ((Editing.replaceChild ⟨0⟩ ⟨1⟩ ⟨3⟩ f).1 = .ok () ∧
        Editing.replaceChild ⟨0⟩ ⟨3⟩ ⟨1⟩ (Editing.replaceChild ⟨0⟩ ⟨1⟩ ⟨3⟩ f).2 = (.ok (), f)) := by
  intro f
  have hone : Forest.Reachable _ := Forest.Reachable.empty.call (.newNode "a") (by decide)
  have htwo := hone.call (.newChild ⟨0⟩ "b") (by decide)
  have hthree := htwo.call (.newChild ⟨0⟩ "c") (by decide)
  have hf : f.Reachable := hthree.call (.newNode "d") (by decide)
  obtain ⟨hzero, hfirst, hlast⟩ : f.Allocated ⟨0⟩ ∧ f.Allocated ⟨1⟩ ∧ f.Allocated ⟨3⟩ := by decide
  have hinserted : (Editing.insert ⟨0⟩ ⟨3⟩ 1 f).1 = .ok () := by rfl
  have hsecond : (f.children ⟨0⟩)[1]? = some ⟨2⟩ := by rfl
  have hreplaced : (Editing.replaceChild ⟨0⟩ ⟨1⟩ ⟨3⟩ f).1 = .ok () := by rfl
  obtain ⟨hinsert, hremove, hreplace⟩ := hf.undoes
  exact ⟨hf, hzero, hfirst, hlast, ⟨hinserted, by rfl, hinsert ⟨0⟩ ⟨3⟩ 1 hzero hlast hinserted⟩,
    ⟨hsecond, (hremove ⟨0⟩ ⟨2⟩ 1 hzero hsecond).2⟩,
    ⟨hreplaced, hreplace ⟨0⟩ ⟨1⟩ ⟨3⟩ hzero hfirst hlast hreplaced⟩⟩

end Packrat
