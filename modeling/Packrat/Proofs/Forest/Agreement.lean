import Packrat.Proofs.Forest.Unfolding
import Packrat.Proofs.Forest.Calls
import Mathlib.Data.List.Forall2

/-! The comparison of what is below two nodes.

Two nodes are compared by a list of pending pairs, which may end early (`Forest.Compares`). On
ordered forests it always ends, and finds two nodes alike exactly if the trees of values below them
are equal, where values are compared as the forests compare them (`Ordered.sameTree_eq`). Nothing is
asked of the equality of values, and what it has the comparison has (`OrderedTree.beq_self`,
`beq_symm` and `beq_trans`). -/
namespace Packrat

namespace OrderedTree
variable {α : Type} [BEq α] {a b : α} {ts us : List (OrderedTree α)} {t u v : OrderedTree α}

/-- Trees are equal if their labels are and they have as many children, which are equal one by
one. -/
def beq : OrderedTree α → OrderedTree α → Bool
  | .node a ts, .node b us => a == b && allBeq ts us
where
  /-- Equality of several trees with as many others. -/
  allBeq : List (OrderedTree α) → List (OrderedTree α) → Bool
    | [], [] => true
    | t :: ts, u :: us => t.beq u && allBeq ts us
    | _, _ => false

instance : BEq (OrderedTree α) := ⟨beq⟩

theorem node_beq : (node a ts == node b us) = true ↔ (a == b) = true ∧ List.Forall₂
      (fun t u => (t == u) = true) ts us := by
  have hall : ∀ ts us : List (OrderedTree α),
      beq.allBeq ts us = true ↔ List.Forall₂ (fun t u => (t == u) = true) ts us := by
    intro ts
    induction ts with
    | nil =>
      intro us
      cases us <;> simp [beq.allBeq]
    | cons t ts ih =>
      intro us
      cases us with
      | nil => simp [beq.allBeq]
      | cons u us =>
        rw [beq.allBeq, Bool.and_eq_true, ih, List.forall₂_cons]
        rfl
  rw [← hall, ← Bool.and_eq_true]
  rfl

/-- What follows for each pair from its first part being in the list follows for all pairs. -/
theorem forall₂_imp_mem {β γ : Type} {R S : β → γ → Prop} {l : List β} {m : List γ}
    (h : ∀ x ∈ l, ∀ y, R x y → S x y) (hl : List.Forall₂ R l m) : List.Forall₂ S l m := by
  induction hl with
  | nil => exact .nil
  | cons hfirst _ ih =>
    exact .cons (h _ (List.mem_cons_self ..) _ hfirst)
      (ih fun x hx => h x (List.mem_cons_of_mem _ hx))

theorem beq_self (h : ∀ a : α, (a == a) = true) (t : OrderedTree α) : (t == t) = true := by
  induction t with
  | node a ts ih => exact node_beq.mpr ⟨h a, List.forall₂_same.mpr ih⟩

theorem beq_symm (h : ∀ a b : α, (a == b) = true → (b == a) = true) (htu : (t == u) = true) :
    (u == t) = true := by
  induction t generalizing u with
  | node a ts ih =>
    obtain ⟨b, us⟩ := u
    obtain ⟨hab, hchildren⟩ := node_beq.mp htu
    refine node_beq.mpr ⟨h a b hab, List.Forall₂.flip ?_⟩
    exact forall₂_imp_mem (fun t ht u htu => ih t ht htu) hchildren

theorem beq_trans (h : ∀ a b c : α, (a == b) = true → (b == c) = true → (a == c) = true)
    (htu : (t == u) = true) (huv : (u == v) = true) : (t == v) = true := by
  induction t generalizing u v with
  | node a ts ih =>
    obtain ⟨b, us⟩ := u
    obtain ⟨c, vs⟩ := v
    obtain ⟨hab, hfirst⟩ := node_beq.mp htu
    obtain ⟨hbc, hsecond⟩ := node_beq.mp huv
    have hthrough : List.Forall₂ (fun t u : OrderedTree α => ∀ v, (u == v) = true →
        (t == v) = true) ts us :=
      forall₂_imp_mem (fun t ht u htu v huv => ih t ht htu huv) hfirst
    have hchildren : List.Forall₂ (fun t v => (t == v) = true) ts vs := by
      rw [List.forall₂_iff_get] at hthrough hsecond ⊢
      refine ⟨hthrough.1.trans hsecond.1, fun i hi hi' => ?_⟩
      exact hthrough.2 i hi (hthrough.1 ▸ hi) _ (hsecond.2 i _ hi')
    exact node_beq.mpr ⟨h a b c hab hbc, hchildren⟩

instance [LawfulBEq α] : LawfulBEq (OrderedTree α) where
  rfl {t} := beq_self (fun _ => BEq.rfl) t
  eq_of_beq {t u} htu := by
    induction t generalizing u with
    | node a ts ih =>
      obtain ⟨b, us⟩ := u
      obtain ⟨hab, hchildren⟩ := node_beq.mp htu
      have hlists : ts = us := by
        rw [← List.forall₂_eq_eq_eq]
        exact forall₂_imp_mem (fun t ht u htu => ih t ht htu) hchildren
      rw [LawfulBEq.eq_of_beq hab, hlists]

end OrderedTree

namespace Forest
variable {α : Type} [BEq α] {f g : Forest α} {x y : NodeId} {m k : Node α}
  {pending : List (NodeId × NodeId)} {same : Bool} {n : Nat}

/-- The whole comparison of the pending pairs, whose nodes were made, and what it finds. -/
inductive Compares (f g : Forest α) : List (NodeId × NodeId) → Bool → Prop where
  | done : Compares f g [] true
  | differ {x y : NodeId} {m k : Node α} {pending : List (NodeId × NodeId)} : f.node? x = some m →
      g.node? y = some k → ¬ ((m.value == k.value) = true ∧ m.children.length = k.children.length) →
      Compares f g ((x, y) :: pending) false
  | next {x y : NodeId} {m k : Node α} {pending : List (NodeId × NodeId)}
      {same : Bool} : f.node? x = some m →
      g.node? y = some k → (m.value == k.value) = true ∧ m.children.length = k.children.length →
      Compares f g ((m.children.zip k.children).reverse ++ pending) same →
      Compares f g ((x, y) :: pending) same

theorem agree_cons (hx : f.node? x = some m) (hy : g.node? y = some k) :
    agree f g (n + 1) ((x, y) :: pending) = if (m.value == k.value) = true ∧
    m.children.length = k.children.length then
      agree f g n ((m.children.zip k.children).reverse ++ pending) else false := by
  simp only [agree, hx, hy]
  split_ifs with hsame
  · rw [hsame.1, decide_eq_true hsame.2, Bool.true_and, Bool.true_and]
  · rw [← Bool.decide_eq_true (b := m.value == k.value), ← Bool.decide_and, decide_eq_false hsame,
      Bool.false_and]

section
variable (h : f.Ordered) (hg : g.Ordered)
include h hg

theorem Ordered.values_beq (hx : f.node? x = some m) (hy : g.node? y = some k) :
    (f.values x == g.values y) = true ↔
    ((m.value == k.value) = true ∧ m.children.length = k.children.length) ∧
      ∀ p ∈ m.children.zip k.children, (f.values p.1 == g.values p.2) = true := by
  rw [h.values_eq, hg.values_eq, value?_of_node? hx, value?_of_node? hy, children_of_node? hx,
    children_of_node? hy,
    OrderedTree.node_beq, List.forall₂_map_left_iff, List.forall₂_map_right_iff,
    List.forall₂_iff_zip, and_assoc]
  simp

/-- The comparison finds that the trees of all pending pairs are equal, or that those of some pair
are not. -/
theorem Compares.eq_true_iff (hcompares : f.Compares g pending same) :
    same = true ↔ ∀ p ∈ pending, (f.values p.1 == g.values p.2) = true := by
  induction hcompares with
  | done => simp
  | differ hx hy hdiffer =>
    refine iff_of_false Bool.false_ne_true fun hall => hdiffer ?_
    exact ((h.values_beq hg hx hy).mp (hall _ (List.mem_cons_self ..))).1
  | next hx hy hsame _ ih =>
    rw [ih, List.forall_mem_cons, h.values_beq hg hx hy, and_iff_right hsame,
      List.forall_mem_append]
    simp only [List.mem_reverse]

/-- The comparison ends, and does so within a bound if there are no more nodes below the first parts
of the pairs. -/
theorem Ordered.compares (hpending : ∀ p ∈ pending, f.Allocated p.1 ∧ g.Allocated p.2)
    (hn : ((pending.map Prod.fst).flatMap fun x => (f.tree x).labels).length ≤ n) :
    f.Compares g pending (agree f g n pending) := by
  induction n generalizing pending with
  | zero =>
    cases pending with
    | nil => exact .done
    | cons p rest => simp [h.labels_eq p.1] at hn
  | succ n ih =>
    cases pending with
    | nil => exact .done
    | cons p rest =>
      obtain ⟨x, y⟩ := p
      obtain ⟨⟨hx, hy⟩, hrest⟩ := List.forall_mem_cons.mp hpending
      obtain ⟨m, hm⟩ := allocated_iff.mp hx
      obtain ⟨k, hk⟩ := allocated_iff.mp hy
      rw [agree_cons hm hk]
      by_cases hsame : (m.value == k.value) = true ∧ m.children.length = k.children.length
      · rw [if_pos hsame]
        refine .next hm hk hsame (ih (fun p hp => ?_) ?_)
        · rcases List.mem_append.mp hp with hp | hp
          · obtain ⟨hc, hd⟩ := List.of_mem_zip (List.mem_reverse.mp hp)
            exact ⟨h.allocated_child (children_of_node? hm ▸ hc),
              hg.allocated_child (children_of_node? hk ▸ hd)⟩
          · exact hrest p hp
        · simp only [List.map_cons, List.flatMap_cons, h.labels_eq x, children_of_node? hm,
            List.length_append, List.length_cons] at hn
          rw [List.map_append, List.map_reverse, List.map_fst_zip hsame.2.le, List.flatMap_append,
            List.length_append,
            List.length_flatMap, List.map_reverse, List.sum_reverse, ← List.length_flatMap]
          omega
      · rw [if_neg hsame]
        exact .differ hm hk hsame

section
variable (hx : f.Allocated x) (hy : g.Allocated y)
include hx hy

theorem Ordered.sameTree_compares : f.Compares g [(x, y)] (f.sameTree x g y) := by
  refine h.compares hg (List.forall_mem_singleton.mpr ⟨hx, hy⟩) ?_
  simpa using h.length_tree_le hx

/-- The comparison finds two nodes alike where the trees of values below them are equal. -/
theorem Ordered.sameTree_eq : f.sameTree x g y = (f.values x == g.values y) := by
  rw [Bool.eq_iff_iff, (h.sameTree_compares hg hx hy).eq_true_iff h hg, List.forall_mem_singleton]

end

theorem Ordered.sameTree_iff [LawfulBEq α] (hx : f.Allocated x) (hy : g.Allocated y) :
    f.sameTree x g y = true ↔ f.values x = g.values y := by
  rw [h.sameTree_eq hg hx hy, beq_iff_eq]

end

/-- The comparison of two nodes ends, and finds them alike exactly if the trees of values below
them, unfolded down the children, are equal, however the nodes are numbered. So it is reflexive,
symmetric or transitive if the equality of values is. -/
theorem Reachable.sameTree_exact (hf : f.Reachable) (hg : g.Reachable) (hx : f.Allocated x)
    (hy : g.Allocated y) : (∀ same, f.Compares g [(x, y)] same ↔ same = f.sameTree x g y) ∧
    (∀ z, f.values z = .node (f.value? z) ((f.children z).map f.values)) ∧
    (f.sameTree x g y = true ↔ (f.values x == g.values y) = true) ∧
    ((∀ a : α, (a == a) = true) → f.sameTree x f x = true) ∧
    ((∀ a b : α, (a == b) = true → (b == a) = true) → f.sameTree x g y = true →
      g.sameTree y f x = true) ∧
    ((∀ a b c : α, (a == b) = true → (b == c) = true → (a == c) = true) →
      ∀ (k : Forest α) (z : NodeId), k.Reachable → k.Allocated z →
        f.sameTree x g y = true → g.sameTree y k z = true → f.sameTree x k z = true) := by
  have h := hf.ordered
  have h' := hg.ordered
  have hends := h.sameTree_compares h' hx hy
  refine ⟨fun same => ⟨fun hsame => ?unique, fun hsame => hsame ▸ hends⟩, h.values_eq, ?exact,
    fun hrefl => ?refl, fun hsymm => ?symm, fun htrans k z hk hz => ?trans⟩
  case unique => rw [Bool.eq_iff_iff, hsame.eq_true_iff h h', hends.eq_true_iff h h']
  case exact => rw [h.sameTree_eq h' hx hy]
  case refl =>
    rw [h.sameTree_eq h hx hx]
    exact OrderedTree.beq_self (fun o => by cases o <;> simp [hrefl]) _
  case symm =>
    rw [h.sameTree_eq h' hx hy, h'.sameTree_eq h hy hx]
    exact OrderedTree.beq_symm fun o o' => by cases o <;> cases o' <;> simp_all
  case trans =>
    rw [h.sameTree_eq h' hx hy, h'.sameTree_eq hk.ordered hy hz, h.sameTree_eq hk.ordered hx hz]
    refine OrderedTree.beq_trans fun o o' o'' => ?_
    cases o <;> cases o' <;> cases o'' <;> simp
    exact htrans _ _ _

/-- The second tree has its nodes made in another order, and is moved to be the only child of a
fourth node. -/
theorem Reachable.sameTree_exact_renumbered : ∃ f g : Forest String, f.Reachable ∧ g.Reachable ∧
    f.Allocated ⟨0⟩ ∧
    g.Allocated ⟨2⟩ ∧ f.Compares g [(⟨0⟩, ⟨2⟩)] true ∧ (f.values ⟨0⟩ == g.values ⟨2⟩) = true ∧
    f.sameTree ⟨0⟩ g ⟨3⟩ = false := by
  have hone : Reachable _ := Reachable.empty.call (.newNode "a") (by decide)
  have htwo := hone.call (.newChild ⟨0⟩ "b") (by decide)
  have hf := htwo.call (.newChild ⟨0⟩ "c") (by decide)
  have hone' : Reachable _ := Reachable.empty.call (.newNode "c") (by decide)
  have htwo' := hone'.call (.newNode "b") (by decide)
  have hthree' := htwo'.call (.newNode "a") (by decide)
  have hfour' := hthree'.call (.newNode "a") (by decide)
  have hfive' := hfour'.call (.add ⟨2⟩ [⟨1⟩, ⟨0⟩]) (by decide)
  have hg := hfive'.call (.add ⟨3⟩ [⟨2⟩]) (by decide)
  obtain ⟨hcompares, _, hexact, _⟩ :=
    hf.sameTree_exact hg (x := ⟨0⟩) (y := ⟨2⟩) (by decide) (by decide)
  exact ⟨_, _, hf,
    hg, by decide, by decide, (hcompares true).mpr (by rfl), hexact.mp (by rfl), by rfl⟩

end Forest

end Packrat
