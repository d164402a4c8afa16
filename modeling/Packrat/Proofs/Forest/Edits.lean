import Packrat.Proofs.Forest.Ordered

/-! What an edit comes to.

On an ordered forest and nodes of it, each edit of the links gives one node another list of children
(`Forest.relink`), or is refused and changes nothing (`Outcome`). So it keeps the forest
ordered: those that come can be attached, and those that stay were there in this order. -/
namespace Packrat

/-- The error is no misuse: the nodes are there. -/
def ForestError.Refusal : ForestError → Prop
  | unallocated _ => False
  | alreadyAttached _ | wouldCycle .. | indexOutOfRange .. | notAChild .. => True

namespace Forest
variable {α β : Type} {f : Forest α} {p c x : NodeId} {l cs kept : List NodeId}

/-- The node can become a child of `p`. -/
def Attachable (f : Forest α) (p c : NodeId) : Prop :=
  f.parent? c = none ∧ ¬ Relation.ReflTransGen f.Parent p c

/-- An edit is done if it can be, and leaves `g` behind; otherwise it is refused, and leaves the
forest as it was. -/
inductive Outcome (f : Forest α) (can : Prop) (b : β) (g : Forest α) :
    Except ForestError β × Forest α → Prop where
  | done : can → Outcome f can b g (.ok b, g)
  | refused {e : ForestError} : ¬ can → e.Refusal → Outcome f can b g (.error e, f)

theorem Outcome.congr {can can' : Prop} {b : β} {g : Forest α} {r : Except ForestError β × Forest α}
    (h : Outcome f can b g r) (hcan : can ↔ can') : Outcome f can' b g r := propext hcan ▸ h

/-! ### What can be attached -/

theorem node_of_allocated (hx : f.Allocated x) : ∃ n, f.node? x = some n ∧ f.node x = .ok n := by
  obtain ⟨n, hn⟩ := allocated_iff.mp hx
  exact ⟨n, hn, by rw [node, hn]⟩

section
variable (h : f.Ordered) (hp : f.Allocated p)
include h hp

theorem checkAttachable_outcome (hc : f.Allocated c) :
    Outcome f (f.Attachable p c) () f (f.checkAttachable p c, f) := by
  obtain ⟨n, hn, hnode⟩ := node_of_allocated hc
  obtain ⟨m, _, hm⟩ := node_of_allocated hp
  have hparent := parent?_of_node? hn
  simp only [checkAttachable, hnode, hm, bind, Except.bind]
  by_cases hsome : n.parent.isSome = true
  · rw [if_pos hsome]
    refine .refused (fun hcan => ?_) trivial
    rw [← hparent, hcan.1] at hsome
    cases hsome
  · rw [if_neg hsome]
    have hnone : f.parent? c = none := by simpa [hparent] using hsome
    have hroot := h.root_eq_iff (x := p) hnone
    dsimp only [pure, Except.pure]
    by_cases hcycle : f.root p = c
    · rw [if_pos hcycle]
      exact .refused (fun hcan => hcan.2 (hroot.mp hcycle)) trivial
    · rw [if_neg hcycle]
      exact .done ⟨hnone, fun hup => hcycle (hroot.mpr hup)⟩

theorem checkAllAttachable_outcome {before : List NodeId} (hcs : ∀ c ∈ cs, f.Allocated c) :
    Outcome f (cs.Nodup ∧ ∀ c ∈ cs, c ∉ before ∧ f.Attachable p c) () f
      (f.checkAllAttachable p before cs, f) := by
  induction cs generalizing before with
  | nil => exact .done ⟨List.nodup_nil, nofun⟩
  | cons c rest ih =>
    have hfirst := checkAttachable_outcome h hp (hcs c (List.mem_cons_self ..))
    have hrest : Outcome f (rest.Nodup ∧ ∀ d ∈ rest, d ∉ c :: before ∧ f.Attachable p d) () f
        (f.checkAllAttachable p (c :: before) rest, f) :=
      ih fun d hd => hcs d (List.mem_cons_of_mem _ hd)
    have hcan : (f.Attachable p c ∧ c ∉ before ∧ rest.Nodup ∧ ∀ d ∈ rest, d ∉ c :: before ∧
        f.Attachable p d) ↔
        (c :: rest).Nodup ∧ ∀ d ∈ c :: rest, d ∉ before ∧ f.Attachable p d := by grind
    refine Outcome.congr ?_ hcan
    unfold checkAllAttachable
    generalize f.checkAttachable p c = first at hfirst
    cases hfirst with
    | refused hcannot hrefusal => exact .refused (fun hcan => hcannot hcan.1) hrefusal
    | done hattachable =>
      simp only [bind, Except.bind]
      by_cases hmem : c ∈ before
      · rw [if_pos hmem]
        exact .refused (fun hcan => hcan.2.1 hmem) trivial
      · rw [if_neg hmem]
        generalize f.checkAllAttachable p (c :: before) rest = others at hrest
        cases hrest with
        | done hcan => exact .done ⟨hattachable, hmem, hcan⟩
        | refused hcannot hrefusal => exact .refused (fun hcan => hcannot hcan.2.2) hrefusal

/-- A forest stays ordered where `p` keeps some of its children and gets others that can be
attached. -/
theorem Ordered.relink_perm (hperm : l.Perm (cs ++ kept)) (hkept : kept.Sublist (f.children p))
    (hnodup : cs.Nodup) (hcs : ∀ c ∈ cs, f.Allocated c ∧ f.Attachable p c) :
    (f.relink p l).Ordered := by
  have hmem : ∀ x ∈ l, x ∈ cs ∨ x ∈ f.children p := fun x hx =>
    (List.mem_append.mp (hperm.mem_iff.mp hx)).imp_right fun hx => hkept.subset hx
  refine h.relink hp (hperm.nodup_iff.mpr ?_) (fun x hx => ?_) fun x hx => ?_
  · refine List.nodup_append.mpr ⟨hnodup, hkept.nodup (h.nodup p), fun x hx y hy => ?_⟩
    rintro rfl
    cases (hcs x hx).2.1.symm.trans ((h.linked p x).mp (hkept.subset hy))
  · rcases hmem x hx with hx | hx
    · exact (hcs x hx).1
    · exact h.allocated_child hx
  · exact (hmem x hx).symm.imp_right fun hx => (hcs x hx).2

theorem Ordered.relink_cons (hperm : l.Perm (c :: kept)) (hkept : kept.Sublist (f.children p))
    (hc : f.Allocated c) (hattachable : f.Attachable p c) : (f.relink p l).Ordered :=
  h.relink_perm hp (show l.Perm ([c] ++ kept) from hperm) hkept (List.nodup_singleton c)
    fun _ hd => by
    cases List.mem_singleton.mp hd
    exact ⟨hc, hattachable⟩

end

/-! ### Links that are set one after the other -/

theorem replace_self (l : List NodeId) (x : NodeId) : l.replace x x = l := by
  induction l with
  | nil => rfl
  | cons y l ih => grind

theorem replace_perm (hx : x ∈ l) (y : NodeId) : (l.replace x y).Perm (y :: l.erase x) := by
  induction l with
  | nil => cases hx
  | cons z l ih => grind

/-- A forest whose links are set like this has another list of children of `p`. -/
theorem eq_relink {f' : Forest α} (parent : NodeId → Option NodeId → Option NodeId)
    (place : List NodeId → List NodeId) (hnode : ∀ x, f'.node? x = (f.node? x).map fun n =>
      { n with
        parent := parent x n.parent
        children := if x = p then place n.children else n.children })
    (hparent : ∀ x, parent x (f.parent? x) =
      if x ∈ place (f.children p) then some p else if x ∈ f.children p then none else f.parent? x) :
    f' = f.relink p (place (f.children p)) := by
  refine ext_node? fun x => ?_
  rw [hnode, node?_relink]
  cases hx : f.node? x with
  | none => rfl
  | some n =>
    have hparent := hparent x
    rw [parent?_of_node? hx] at hparent
    rw [Option.map_some, Option.map_some, hparent]
    by_cases hxp : x = p
    · subst hxp
      rw [if_pos rfl, if_pos rfl, children_of_node? hx]
    · rw [if_neg hxp, if_neg hxp]

theorem relink_children (h : f.Ordered) (p : NodeId) : f.relink p (f.children p) = f := by
  refine (eq_relink (fun _ o => o) id (fun x => ?_) fun x => ?_).symm
  · simp
  · have hlinked := h.linked p x
    grind

end Forest

namespace Editing
open Forest (Outcome)
variable {α β γ : Type} {f : Forest α} {p c x old new : NodeId} {cs : List NodeId}

theorem bind_run {e : Editing α β} {b : β} {f' : Forest α} (he : e f = (.ok b, f'))
    (k : β → Editing α γ) : (e >>= k) f = k b f' := by
  simp only [bind, ExceptT.bind, ExceptT.mk, StateT.bind, he]
  rfl

theorem bind_error {e : Editing α β} {error : ForestError} {f' : Forest α}
    (he : e f = (.error error, f')) (k : β → Editing α γ) : (e >>= k) f = (.error error, f') := by
  simp only [bind, ExceptT.bind, ExceptT.mk, StateT.bind, he]
  rfl

theorem map_run (g : β → γ) (e : Editing α β) (f : Forest α) :
    (g <$> e) f = ((e f).1.map g, (e f).2) := by
  simp only [Functor.map, ExceptT.map, ExceptT.mk, StateT.bind, bind]
  rcases e f with ⟨o, f'⟩
  cases o <;> rfl

/-- An edit that looks first whether it can be done comes to what the look says. -/
theorem ask_outcome {look : Forest α → Except ForestError Unit} {e : Editing α Unit} {can : Prop}
    {g : Forest α} (hlook : Outcome f can () f (look f, f)) (hrun : can → e f = (.ok (), g)) :
    Outcome f can () g ((ask look >>= fun _ => e) f) := by
  have hask : ask look f = (look f, f) := rfl
  generalize look f = o at hask hlook
  cases hlook with
  | done hcan =>
    rw [bind_run hask, hrun hcan]
    exact .done hcan
  | refused hcannot hrefusal =>
    rw [bind_error hask]
    exact .refused hcannot hrefusal

theorem ask_node (hx : f.Allocated x) :
    ∃ n, ask (·.node x) f = (.ok n, f) ∧ n.children = f.children x := by
  obtain ⟨n, hn, hnode⟩ := Forest.node_of_allocated hx
  exact ⟨n, congrArg (·, f) hnode, (Forest.children_of_node? hn).symm⟩

theorem change_run (hx : f.Allocated x) (g : Node α → Node α) :
    change x g f = (.ok (), f.modify x g) := by
  obtain ⟨n, hn, _⟩ := ask_node hx
  exact bind_run hn _

def detached (f : Forest α) (c : NodeId) : Forest α := f.modify c fun n => { n with parent := none }

theorem node?_detached (f : Forest α) (c x : NodeId) :
    (detached f c).node? x = (f.node? x).map fun n =>
      if x = c then { n with parent := none } else n :=
  Forest.node?_modify ..

theorem detach_run (hx : f.Allocated x) : setParent none x f = (.ok (), detached f x) :=
  change_run hx _

theorem setChildren_run (hx : f.Allocated x) (place : List NodeId → List NodeId) :
    setChildren x place f = (.ok (), f.setChildren x place) := change_run hx _

/-- The forest in which `c` has the parent `p`, and `p` the children that `place` makes of its
own. -/
def attached (f : Forest α) (p c : NodeId) (place : List NodeId → List NodeId) : Forest α :=
  (f.modify c fun n => { n with parent := some p }).setChildren p place

theorem attach_run (hp : f.Allocated p) (hc : f.Allocated c) (place : List NodeId → List NodeId) :
    attach p c place f = (.ok (), attached f p c place) := by
  unfold attach setParent
  rw [bind_run (change_run hc _)]
  exact setChildren_run (hp.of_size (Forest.size_modify ..)) place

theorem size_attached (f : Forest α) (p c : NodeId) (place : List NodeId → List NodeId) :
    (attached f p c place).size = f.size :=
  (Forest.size_modify ..).trans (Forest.size_modify ..)

theorem node?_attached (f : Forest α) (p c : NodeId) (place : List NodeId → List NodeId)
    (x : NodeId) : (attached f p c place).node? x = (f.node? x).map fun n => { n with
      parent := if x = c then some p else n.parent
      children := if x = p then place n.children else n.children } := by
  simp only [attached, Forest.setChildren, Forest.node?_modify, Option.map_map]
  refine Option.map_congr fun n _ => ?_
  simp only [Function.comp]
  split <;> split <;> rfl

theorem attached_eq (h : f.Ordered) {place : List NodeId → List NodeId}
    (hplace : ∀ x, x ∈ place (f.children p) ↔ x = c ∨ x ∈ f.children p) :
    attached f p c place = f.relink p (place (f.children p)) := by
  refine Forest.eq_relink (fun x o => if x = c then some p else o) place
    (node?_attached f p c place) fun x => ?_
  have hlinked := h.linked p x
  have hmem := hplace x
  grind

/-! ### Many links -/

/-- A loop of edits that are done one after the other, each in a forest of this size. -/
theorem forM_run {e : NodeId → Editing α Unit} {g : Forest α → NodeId → Forest α}
    (hsize : ∀ f c, (g f c).size = f.size) (hrun : ∀ f' : Forest α, f'.size = f.size → ∀ c ∈ cs,
      e c f' = (.ok (), g f' c)) :
    cs.forM e f = (.ok (), cs.foldl g f) := by
  induction cs generalizing f with
  | nil => rfl
  | cons c rest ih =>
    have hfirst := hrun f rfl c (List.mem_cons_self ..)
    have hrest : rest.forM e (g f c) = (.ok (), rest.foldl g (g f c)) := ih fun f' hf' d hd =>
      hrun f' (hf'.trans (hsize f c)) d (List.mem_cons_of_mem _ hd)
    exact (bind_run hfirst fun _ => rest.forM e).trans hrest

theorem node?_foldl_attached (f : Forest α) (p : NodeId) (cs : List NodeId) (x : NodeId) :
    (cs.foldl (fun f c => attached f p c (· ++ [c])) f).node? x = (f.node? x).map fun n => { n with
      parent := if x ∈ cs then some p else n.parent
      children := if x = p then n.children ++ cs else n.children } := by
  induction cs generalizing f with
  | nil => simp
  | cons c rest ih =>
    rw [List.foldl_cons, ih, node?_attached, Option.map_map]
    refine Option.map_congr fun n _ => ?_
    simp only [Function.comp, List.mem_cons]
    grind

theorem node?_foldl_detached (f : Forest α) (cs : List NodeId) (x : NodeId) :
    (cs.foldl detached f).node? x = (f.node? x).map fun n =>
      { n with parent := if x ∈ cs then none else n.parent } := by
  induction cs generalizing f with
  | nil => simp
  | cons c rest ih =>
    rw [List.foldl_cons, ih, node?_detached, Option.map_map]
    refine Option.map_congr fun n _ => ?_
    simp only [Function.comp, List.mem_cons]
    grind

/-! ### Each edit of the links -/

section
variable (h : f.Ordered) (hp : f.Allocated p)
include h hp

theorem add_outcome (hcs : ∀ c ∈ cs, f.Allocated c) :
    Outcome f (cs.Nodup ∧ ∀ c ∈ cs, f.Attachable p c) () (f.relink p (f.children p ++ cs))
      (add p cs f) := by
  have hcheck : Outcome f (cs.Nodup ∧ ∀ c ∈ cs, c ∉ [] ∧ f.Attachable p c) () f
      (f.checkAllAttachable p [] cs, f) :=
    Forest.checkAllAttachable_outcome h hp hcs
  -- Every check is made before the first link is set, so all of them are of `f`.
  refine (ask_outcome hcheck fun _ => ?_).congr (by simp)
  rw [forM_run (fun f c => size_attached f p c (· ++ [c])) fun f' hf' c hc =>
    attach_run (hp.of_size hf') ((hcs c hc).of_size hf') _]
  refine congrArg _ (Forest.eq_relink (fun x o => if x ∈ cs then some p else o) (· ++ cs)
    (node?_foldl_attached f p cs) fun x => ?_)
  have hlinked := h.linked p x
  grind

theorem insert_outcome (hc : f.Allocated c) (i : Nat) :
    Outcome f (i ≤ (f.children p).length ∧ f.Attachable p c) ()
      (f.relink p ((f.children p).insertIdx i c)) (insert p c i f) := by
  obtain ⟨n, hn, hchildren⟩ := ask_node hp
  unfold insert
  rw [bind_run hn, hchildren]
  dsimp only
  by_cases hlt : (f.children p).length < i
  · rw [if_pos hlt]
    exact .refused (fun hcan => absurd hcan.1 (Nat.not_le_of_lt hlt)) trivial
  · rw [if_neg hlt]
    have hle : i ≤ (f.children p).length := Nat.le_of_not_lt hlt
    refine (ask_outcome (Forest.checkAttachable_outcome h hp hc) fun _ => ?_).congr
      (and_iff_right hle).symm
    have hplaced : attached f p c (·.insertIdx i c) = f.relink p ((f.children p).insertIdx i c) :=
      attached_eq h fun x => List.mem_insertIdx hle
    rw [attach_run hp hc, hplaced]

theorem replaceChild_outcome (old : NodeId) (hnew : f.Allocated new) :
    Outcome f (old ∈ f.children p ∧ (new = old ∨ f.Attachable p new)) ()
      (f.relink p ((f.children p).replace old new)) (replaceChild p old new f) := by
  obtain ⟨n, hn, hchildren⟩ := ask_node hp
  unfold replaceChild
  rw [bind_run hn, hchildren]
  by_cases hold : old ∈ f.children p
  · rw [if_pos hold]
    by_cases hsame : old = new
    · subst hsame
      rw [if_pos rfl, Forest.replace_self, Forest.relink_children h]
      exact .done ⟨hold, .inl rfl⟩
    · rw [if_neg hsame]
      have hcan : f.Attachable p new ↔ old ∈ f.children p ∧ (new = old ∨ f.Attachable p new) := by
        simp [hold, Ne.symm hsame]
      -- The check is made while `old` is still attached.
      refine (ask_outcome (Forest.checkAttachable_outcome h hp hnew) fun _ => ?_).congr hcan
      have hallocated : f.Allocated old := h.allocated_child hold
      have hsize : (detached f old).size = f.size := Forest.size_modify ..
      have hlinks : attached (detached f old) p new (·.replace old new) =
          f.relink p ((f.children p).replace old new) := by
        refine Forest.eq_relink (fun x o => if x = new then some p else if x = old then none else o)
          (·.replace old new) (fun x => ?_) fun x => ?_
        · rw [node?_attached, node?_detached, Option.map_map]
          refine Option.map_congr fun n _ => ?_
          simp only [Function.comp]
          split <;> split <;> split <;> rfl
        · have hmem : x ∈ (f.children p).replace old new ↔ x = new ∨ x ≠ old ∧
              x ∈ f.children p := by
            rw [(Forest.replace_perm hold new).mem_iff, List.mem_cons, (h.nodup p).mem_erase_iff]
          have hlinked := h.linked p x
          have hlinkedold := h.linked p old
          grind
      rw [bind_run (detach_run hallocated), attach_run (hp.of_size hsize) (hnew.of_size hsize),
        hlinks]
  · rw [if_neg hold]
    exact .refused (fun hcan => hold hcan.1) trivial

theorem remove_run (c : NodeId) :
    remove p c f = if c ∈ f.children p then (.ok true, f.relink p ((f.children p).erase c))
    else (.ok false, f) := by
  obtain ⟨n, hn, hchildren⟩ := ask_node hp
  unfold remove
  rw [bind_run hn, hchildren]
  by_cases hmem : c ∈ f.children p
  · rw [if_pos hmem, if_pos hmem]
    have hc : f.Allocated c := h.allocated_child hmem
    have hsize : (f.setChildren p (·.erase c)).size = f.size := Forest.size_modify ..
    have hlinks : detached (f.setChildren p (·.erase c)) c =
        f.relink p ((f.children p).erase c) := by
      refine Forest.eq_relink (fun x o => if x = c then none else o) (·.erase c) (fun x => ?_)
        fun x => ?_
      · rw [node?_detached, Forest.setChildren, Forest.node?_modify, Option.map_map]
        refine Option.map_congr fun n _ => ?_
        simp only [Function.comp]
        split <;> split <;> rfl
      · have hlinked := h.linked p x
        have herase : x ∈ (f.children p).erase c ↔ x ≠ c ∧ x ∈ f.children p :=
          (h.nodup p).mem_erase_iff
        grind
    rw [bind_run (setChildren_run hp _), bind_run (detach_run (hc.of_size hsize)), hlinks]
    rfl
  · rw [if_neg hmem, if_neg hmem]
    rfl

theorem clear_run : clear p f = (.ok (), f.relink p []) := by
  obtain ⟨n, hn, hchildren⟩ := ask_node hp
  have hsize : (f.setChildren p fun _ => []).size = f.size := Forest.size_modify ..
  have hrun : (f.children p).forM (setParent none) (f.setChildren p fun _ => []) =
      (.ok (), (f.children p).foldl detached (f.setChildren p fun _ => [])) :=
    forM_run (fun f c => Forest.size_modify ..) fun f' hf' c hc =>
      detach_run ((h.allocated_child hc).of_size (hf'.trans hsize))
  have hlinks : (f.children p).foldl detached (f.setChildren p fun _ => []) = f.relink p [] := by
    refine Forest.eq_relink (fun x o => if x ∈ f.children p then none else o) (fun _ => [])
      (fun x => ?_) fun x => ?_
    · rw [node?_foldl_detached, Forest.setChildren, Forest.node?_modify, Option.map_map]
      refine Option.map_congr fun n _ => ?_
      simp only [Function.comp]
      split <;> split <;> rfl
    · rw [if_neg List.not_mem_nil]
  unfold clear
  rw [bind_run hn, hchildren, bind_run (setChildren_run hp _), hrun, hlinks]

end

end Editing

end Packrat
