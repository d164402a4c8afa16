import Packrat.Recognition.Derivation
import Mathlib.Algebra.Ring.Nat

/-! The derivation that is laid out from an answer is the answer's tree.

Each node made stands for an answer within the one that is laid out: it has the answer's
step, and its children stand for the answer's children in order (`Derivation.Shows`).
While nodes are being made this holds of all but the pending ones, which have no children
yet (`Laid`). -/
namespace Packrat

namespace Forest
variable {α : Type}

theorem node?_newChildren (f : Forest α) {parent : NodeId} (values : List α)
    (hp : parent.index < f.size) (id : NodeId) : (f.newChildren parent values).1.node? id =
      if id.index < f.size then
        if id = parent then
          (f.node? id).map fun n =>
            { n with children := n.children ++ (f.newChildren parent values).2 }
        else f.node? id
      else (values[id.index - f.size]?).map fun value => { value, parent := some parent } := by
  have hids : (id = parent) ↔ parent.index = id.index :=
    ⟨fun h => h ▸ rfl, fun h => by cases id; cases parent; exact congrArg _ h.symm⟩
  simp only [newChildren, setChildren, modify, node?, List.foldl_push_eq_append,
    Array.getElem?_modify, Array.getElem?_append, hids, size] at hp ⊢
  split
  · rw [if_pos (by omega), if_pos (by omega)]
  · by_cases hlt : id.index < f.nodes.size
    · rw [if_pos hlt, if_pos hlt]
    · rw [if_neg hlt, if_neg hlt, List.getElem?_toArray, List.getElem?_map]

@[simp] theorem size_newChildren (f : Forest α) (parent : NodeId) (values : List α) :
    (f.newChildren parent values).1.size = f.size + values.length := by
  simp [newChildren, setChildren, modify, size, List.foldl_push_eq_append]

@[simp] theorem length_newChildren (f : Forest α) (parent : NodeId) (values : List α) :
    (f.newChildren parent values).2.length = values.length := by
  simp [newChildren]

theorem mem_newChildren {f : Forest α} {parent : NodeId} {values : List α} {id : NodeId} :
    id ∈ (f.newChildren parent values).2 ↔ f.size ≤ id.index ∧ id.index < f.size +
    values.length := by
  rw [← List.mem_range'_1]
  refine ⟨fun h => ?_, fun h => List.mem_map.mpr ⟨id.index, h, rfl⟩⟩
  obtain ⟨i, hi, rfl⟩ := List.mem_map.mp h
  exact hi

theorem nodup_newChildren (f : Forest α) (parent : NodeId) (values : List α) :
    (f.newChildren parent values).2.Nodup :=
  List.Pairwise.map _ (fun _ _ hne he => hne (congrArg NodeId.index he)) List.nodup_range'

theorem node?_lt {f : Forest α} {id : NodeId} {n : Node α} (h : f.node? id = some n) :
    id.index < f.size := (Array.getElem?_eq_some_iff.mp h).1

end Forest

/-- An answer that another one is made of, at whatever depth, or is itself. -/
inductive Answer.Within (root : Answer) : Answer → Prop where
  | refl : root.Within root
  | child {a c : Answer} : root.Within a → c ∈ a.children → root.Within c

/-- Every node stands for an answer within `a`, whose step it has, and its children stand for the
answer's children. -/
structure Derivation.Shows (d : Derivation) (a : Answer) (label : NodeId → Answer) : Prop where
  root : label d.root = a ∧ ∃ n, d.forest.node? d.root = some n
  node : ∀ id n, d.forest.node? id = some n → n.value = (label id).step ∧ a.Within (label id) ∧
    n.children.map label = (label id).children ∧ ∀ c ∈ n.children, c.index < d.forest.size

/-- What holds of a forest while the children of the pending nodes are still to be made. -/
structure Laid (root : Answer) (f : Forest Step) (pending : List (NodeId × Answer))
    (label : NodeId → Answer) : Prop where
  value : ∀ id n, f.node? id = some n → n.value = (label id).step ∧ root.Within (label id)
  made : ∀ p ∈ pending, label p.1 = p.2 ∧ p.1.index < f.size
  nodup : (pending.map Prod.fst).Nodup
  fresh : ∀ id ∈ pending.map Prod.fst, ∀ n, f.node? id = some n → n.children = []
  done : ∀ id n, f.node? id = some n → id ∉ pending.map Prod.fst →
    n.children.map label = (label id).children ∧ ∀ c ∈ n.children, c.index < f.size

theorem sizes_eq_sum (l : List Answer) : Answer.size.sizes l = (l.map Answer.size).sum := by
  induction l with
  | nil => rfl
  | cons a rest ih => rw [Answer.size.sizes, ih, List.map_cons, List.sum_cons]

theorem size_eq (a : Answer) : a.size = 1 + (a.children.map Answer.size).sum := by
  cases a
  rw [Answer.size, sizes_eq_sum]

/-- Labels by which the nodes from the number `n` on stand for the children of an answer. -/
def relabel (label : NodeId → Answer) (n : Nat) (a : Answer) (id : NodeId) : Answer :=
  if id.index < n then label id else (a.children[id.index - n]?).getD a

theorem relabel_old {label : NodeId → Answer} {n : Nat} {a : Answer} {id : NodeId}
    (h : id.index < n) : relabel label n a id = label id := if_pos h

theorem relabel_new (label : NodeId → Answer) (f : Forest Step) (parent : NodeId) (a : Answer) :
    (f.newChildren parent (a.children.map (·.step))).2.map
      (relabel label f.size a) = a.children := by
  have hids : (f.newChildren parent (a.children.map (·.step))).2 =
      (List.range' f.size a.children.length).map NodeId.mk := by
    simp only [Forest.newChildren, List.length_map]
  rw [hids, List.map_map]
  refine List.ext_getElem (by simp) fun i hi hi' => ?_
  have hge : ¬ f.size + i < f.size := by omega
  simp [relabel, List.getElem?_eq_getElem hi', hge]

namespace Laid
variable {root a : Answer} {f : Forest Step} {id : NodeId} {pending : List (NodeId × Answer)}
  {label : NodeId → Answer}

theorem pending_lt (h : Laid root f pending label) :
    ∀ j ∈ pending.map Prod.fst, j.index < f.size := by
  intro j hj
  obtain ⟨p, hp, rfl⟩ := List.mem_map.mp hj
  exact (h.made p hp).2

/-- A node is the parent of those that were made, another one from before, or one that was made. -/
theorem node_cases (label : NodeId → Answer) {n m : Node Step} {j : NodeId}
    (hid : id.index < f.size) (hn : f.node? id = some n)
    (hm : (f.newChildren id (a.children.map (·.step))).1.node? j = some m) :
    (j = id ∧
      m = { n with children := n.children ++ (f.newChildren id (a.children.map (·.step))).2 }) ∨
      (j ≠ id ∧ f.node? j = some m) ∨
      (f.size ≤ j.index ∧
        ∃ c ∈ a.children, relabel label f.size a j = c ∧
        m = { value := c.step, parent := some id }) := by
  rw [Forest.node?_newChildren f (a.children.map (·.step)) hid j] at hm
  by_cases hlt : j.index < f.size
  · rw [if_pos hlt] at hm
    by_cases hj : j = id
    · subst hj
      rw [if_pos rfl, hn] at hm
      exact .inl ⟨rfl, (Option.some.inj hm).symm⟩
    · rw [if_neg hj] at hm
      exact .inr (.inl ⟨hj, hm⟩)
  · rw [if_neg hlt, List.getElem?_map] at hm
    obtain ⟨value, hvalue, hm⟩ := Option.map_eq_some_iff.mp hm
    obtain ⟨c, hc, hstep⟩ := Option.map_eq_some_iff.mp hvalue
    refine .inr (.inr ⟨Nat.le_of_not_lt hlt, c, List.mem_of_getElem? hc, ?_, ?_⟩)
    · rw [relabel, if_neg hlt, hc]
      rfl
    · rw [← hm, ← hstep]

/-- The numbers of the pending nodes, once children have been made. -/
theorem pending_ids (f : Forest Step) (id : NodeId) (a : Answer)
    (pending : List (NodeId × Answer)) :
    (((f.newChildren id (a.children.map (·.step))).2.zip a.children).reverse ++ pending).map
      Prod.fst =
      (f.newChildren id (a.children.map (·.step))).2.reverse ++ pending.map Prod.fst := by
  have hle : (f.newChildren id (a.children.map (·.step))).2.length ≤ a.children.length := by
    rw [Forest.length_newChildren, List.length_map]
  rw [List.map_append, List.map_reverse, List.map_fst_zip hle]

/-- The pending answers, once children have been made: those of the answer come in its place. -/
theorem pending_answers (f : Forest Step) (id : NodeId) (a : Answer)
    (pending : List (NodeId × Answer)) :
    (((f.newChildren id (a.children.map (·.step))).2.zip a.children).reverse ++ pending).map
      Prod.snd = a.children.reverse ++ pending.map Prod.snd := by
  have hle : a.children.length ≤ (f.newChildren id (a.children.map (·.step))).2.length := by
    rw [Forest.length_newChildren, List.length_map]
  rw [List.map_append, List.map_reverse, List.map_snd_zip hle]

/-- All answers within a pending one are still to be laid out but for itself, once its children have
been made. -/
theorem pending_size (f : Forest Step) (id : NodeId) (a : Answer)
    (pending : List (NodeId × Answer)) :
    ((((f.newChildren id (a.children.map (·.step))).2.zip a.children).reverse ++ pending).map
        (·.2.size)).sum + 1 =
      (((id, a) :: pending).map (·.2.size)).sum := by
  have hsnd : ∀ l : List (NodeId × Answer),
      l.map (·.2.size) = (l.map Prod.snd).map Answer.size := fun l =>
    (List.map_map ..).symm
  rw [hsnd, pending_answers, hsnd, List.map_append, List.sum_append, List.map_reverse,
    List.sum_reverse, List.map_cons, List.map_cons, List.sum_cons, size_eq a]
  omega

/-- The children of a pending node are made. -/
theorem step (h : Laid root f ((id, a) :: pending) label) :
    Laid root (f.newChildren id (a.children.map (·.step))).1
      (((f.newChildren id (a.children.map (·.step))).2.zip a.children).reverse ++ pending)
      (relabel label f.size a) := by
  obtain ⟨hlabel, hid⟩ := h.made (id, a) (List.mem_cons_self ..)
  obtain ⟨n, hn⟩ : ∃ n, f.node? id = some n := ⟨_, Array.getElem?_eq_getElem hid⟩
  have hwithin : root.Within a := (show label id = a from hlabel) ▸ (h.value id n hn).2
  have hsize : (f.newChildren id (a.children.map (·.step))).1.size = f.size +
      a.children.length := by
    rw [Forest.size_newChildren, List.length_map]
  have hmem : ∀ j ∈ (f.newChildren id (a.children.map (·.step))).2,
      f.size ≤ j.index ∧ j.index < f.size + a.children.length := by
    intro j hj
    have hj := Forest.mem_newChildren.mp hj
    rwa [List.length_map] at hj
  obtain ⟨hnot, hnodup⟩ := List.nodup_cons.mp h.nodup
  have hlt : ∀ j ∈ pending.map Prod.fst, j.index < f.size := fun j hj =>
    h.pending_lt j (List.mem_cons_of_mem _ hj)
  refine ⟨?value, ?made, ?nodup, ?fresh, ?done⟩
  case value =>
    intro j m hm
    rcases node_cases label hid hn hm with ⟨rfl, rfl⟩ | ⟨hj, hm⟩ | ⟨_, c, hc, hnew, rfl⟩
    · rw [relabel_old hid]
      exact h.value _ n hn
    · rw [relabel_old (Forest.node?_lt hm)]
      exact h.value j m hm
    · rw [hnew]
      exact ⟨rfl, hwithin.child hc⟩
  case made =>
    intro p hp
    rcases List.mem_append.mp hp with hp | hp
    · obtain ⟨i, hi, rfl⟩ := List.mem_iff_getElem.mp (List.mem_reverse.mp hp)
      have hnew := relabel_new label f id a
      have hi' : i < a.children.length := by
        rw [List.length_zip] at hi
        omega
      have hchild := List.getElem_of_eq hnew (hnew ▸ hi')
      rw [List.getElem_map] at hchild
      simp only [List.getElem_zip]
      exact ⟨hchild, Nat.lt_of_lt_of_eq (hmem _ (List.getElem_mem _)).2 hsize.symm⟩
    · obtain ⟨hlabel, hlt⟩ := h.made p (List.mem_cons_of_mem _ hp)
      exact ⟨(relabel_old hlt).trans hlabel, by omega⟩
  case nodup =>
    rw [pending_ids]
    refine List.nodup_append.mpr ⟨(List.reverse_perm _).symm.nodup (Forest.nodup_newChildren ..),
      hnodup, fun j hj j' hj' heq => ?_⟩
    have hge := (hmem j (List.mem_reverse.mp hj)).1
    have := hlt j' hj'
    rw [heq] at hge
    omega
  case fresh =>
    intro j hj m hm
    rw [pending_ids] at hj
    rcases node_cases label hid hn hm with ⟨rfl, _⟩ | ⟨hne, hm⟩ | ⟨_, _, _, _, rfl⟩
    · rcases List.mem_append.mp hj with hj | hj
      · exact absurd hid (Nat.not_lt.mpr (hmem j (List.mem_reverse.mp hj)).1)
      · exact absurd hj hnot
    · rcases List.mem_append.mp hj with hj | hj
      · exact absurd (Forest.node?_lt hm) (Nat.not_lt.mpr (hmem j (List.mem_reverse.mp hj)).1)
      · exact h.fresh j (List.mem_cons_of_mem _ hj) m hm
    · rfl
  case done =>
    intro j m hm hj
    rw [pending_ids] at hj
    rcases node_cases label hid hn hm with ⟨rfl, rfl⟩ | ⟨hne, hm⟩ | ⟨hge, _⟩
    · rw [h.fresh j (List.mem_cons_self ..) n hn, relabel_old hid, hlabel]
      exact ⟨relabel_new label f j a, fun c hc => Nat.lt_of_lt_of_eq (hmem c hc).2 hsize.symm⟩
    · have hj' : j ∉ (((id, a) :: pending).map Prod.fst) := fun hmem => by
        rcases List.mem_cons.mp hmem with heq | hmem
        · exact hne heq
        · exact hj (List.mem_append_right _ hmem)
      obtain ⟨hchildren, hlt⟩ := h.done j m hm hj'
      rw [relabel_old (Forest.node?_lt hm), ← hchildren]
      refine ⟨List.map_congr_left fun c hc => relabel_old (hlt c hc), fun c hc => ?_⟩
      have := hlt c hc
      omega
    · -- A node that was just made is pending.
      refine absurd
        (List.mem_append_left _ (List.mem_reverse.mpr (Forest.mem_newChildren.mpr ⟨hge, ?_⟩))) hj
      have := Forest.node?_lt hm
      rw [List.length_map]
      omega

/-- All children are made in the end. -/
theorem layOut {n : Nat} (h : Laid root f pending label) (hn : (pending.map (·.2.size)).sum ≤ n) :
    ∃ label', Laid root (Derivation.layOut n f pending) [] label' ∧
      f.size ≤ (Derivation.layOut n f pending).size ∧ ∀ j, j.index < f.size →
      label' j = label j := by
  induction n generalizing f pending label with
  | zero =>
    cases pending with
    | nil => exact ⟨label, h, Nat.le_refl _, fun _ _ => rfl⟩
    | cons p rest =>
      rw [List.map_cons, List.sum_cons, size_eq] at hn
      omega
  | succ n ih =>
    cases pending with
    | nil => exact ⟨label, h, Nat.le_refl _, fun _ _ => rfl⟩
    | cons p rest =>
      obtain ⟨id, a⟩ := p
      rw [← pending_size f] at hn
      obtain ⟨label', hlaid, hle, hold⟩ := ih h.step (Nat.le_of_succ_le_succ hn)
      rw [Forest.size_newChildren] at hle hold
      refine ⟨label', hlaid, Nat.le_trans (Nat.le_add_right ..) hle, fun j hj => ?_⟩
      rw [hold j (Nat.lt_add_right _ hj), relabel_old hj]

end Laid

/-- The derivation of an answer is the answer's tree. -/
theorem Derivation.ofAnswer_shows (a : Answer) :
    ∃ label, (Derivation.ofAnswer a).Shows a label := by
  have hnode : ∀ id n, (({} : Forest Step).newNode a.step).1.node? id = some n →
      id = ⟨0⟩ ∧ n = { value := a.step } := by
    intro id n hn
    have hlt : id.index < 1 := Forest.node?_lt hn
    obtain ⟨i⟩ := id
    obtain rfl : i = 0 := Nat.lt_one_iff.mp hlt
    exact ⟨rfl, (Option.some.inj hn).symm⟩
  have hstart : Laid a (({} : Forest Step).newNode a.step).1 [(⟨0⟩, a)] fun _ => a := by
    refine ⟨fun id n hn => ?_, fun p hp => ?_, by simp, fun id _ n hn => ?_, fun id n hn hid => ?_⟩
    · obtain ⟨_, rfl⟩ := hnode id n hn
      exact ⟨rfl, .refl⟩
    · obtain rfl := List.mem_singleton.mp hp
      exact ⟨rfl, Nat.zero_lt_one⟩
    · obtain ⟨_, rfl⟩ := hnode id n hn
      rfl
    · exact absurd (List.mem_singleton.mpr (hnode id n hn).1) hid
  obtain ⟨label, h, hle, hold⟩ := hstart.layOut (n := a.size) (by simp)
  refine ⟨label, ⟨hold ⟨0⟩ Nat.zero_lt_one, _, Array.getElem?_eq_getElem hle⟩, fun id n hn => ?_⟩
  obtain ⟨hvalue, hwithin⟩ := h.value id n hn
  exact ⟨hvalue, hwithin, h.done id n hn List.not_mem_nil⟩

end Packrat
