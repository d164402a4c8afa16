import Packrat.Proofs.Forest.Calls

/-! Calls that are given a node that is not there.

An edit looks up the nodes that it is given before it changes anything. So a call that is given a
node that is not there ends with the error `unallocated` for such a node, or changes nothing
(`Ordered.missed`); and where no call ends with this error, calls of any nodes lead to no other
forests than calls of nodes that are there do (`Answered.reachable`).

One call is different. A child is made before its parent is looked up, so with the number that the
child is about to get as its parent it becomes its own child (`newChild_next`), and going up from it
never ends. -/
namespace Packrat.Forest
open Editing (ask attach change bind_run bind_error map_run change_run)
variable {α β γ : Type} {f : Forest α} {p c x : NodeId} {nodes more cs : List NodeId}

namespace Call

/-- The call is given a node that is not there. -/
def Foreign (f : Forest α) (call : Call α) : Prop := ∃ x ∈ call.nodes, ¬ f.Allocated x

/-- The call makes a child of the number that the child is about to get. -/
def UnderItself (f : Forest α) (call : Call α) : Prop := ∃ value, call = .newChild ⟨f.size⟩ value

end Call

/-- The forests that calls of any nodes lead to, where no call ends at a node that is not there and
none makes a child of itself. -/
inductive Answered : Forest α → Prop where
  | empty : Answered {}
  | call {f : Forest α} (call : Call α) : f.Answered →
      (∀ e, (call.run f).1 = .error e → e.Refusal) →
    ¬ call.UnderItself f → Answered (call.run f).2

/-- The error is a refusal, or says of one of the nodes that it is not there. -/
def Misses (f : Forest α) (nodes : List NodeId) (e : ForestError) : Prop :=
  e.Refusal ∨ ∃ x ∈ nodes, ¬ f.Allocated x ∧ e = .unallocated x

/-- How a call ends that is given a node that is not there: with the error for such a node, or
refused, or with nothing to remove or nothing to add. -/
inductive Missed (f : Forest α) (call : Call α) : Except ForestError Reply × Forest α → Prop where
  | unallocated {x : NodeId} {g : Forest α} : x ∈ call.nodes → ¬ f.Allocated x →
      Missed f call (.error (.unallocated x), g)
  | refused {e : ForestError} : e.Refusal → Missed f call (.error e, f)
  | removed : Missed f call (.ok (.removed false), f)
  | added {p : NodeId} : call = .add p [] → Missed f call (.ok .done, f)

/-! ### Looking nodes up -/

/-- A look at the forest that goes through only if the nodes are there, and fails for a reason
otherwise. -/
def Finds (f : Forest α) (nodes : List NodeId) : Except ForestError β → Prop
  | .ok _ => ∀ x ∈ nodes, f.Allocated x
  | .error e => f.Misses nodes e

namespace Finds

theorem mono {o : Except ForestError β} (h : f.Finds nodes o) (hsub : ∀ x ∈ nodes, x ∈ more)
    (hmore : (∀ x ∈ nodes, f.Allocated x) → ∀ x ∈ more, f.Allocated x) : f.Finds more o := by
  cases o with
  | ok b => exact hmore h
  | error e => exact Or.imp_right (fun ⟨x, hx, hmissing⟩ => ⟨x, hsub x hx, hmissing⟩) h

/-- One look after the other finds what both find. -/
theorem bind {o : Except ForestError β} {k : β → Except ForestError γ} (h : f.Finds nodes o)
    (hsub : ∀ x ∈ nodes, x ∈ more) (hk : (∀ x ∈ nodes, f.Allocated x) → ∀ b, f.Finds more (k b)) :
    f.Finds more (o >>= k) := by
  cases o with
  | error e => exact Or.imp_right (fun ⟨x, hx, hmissing⟩ => ⟨x, hsub x hx, hmissing⟩) h
  | ok b => exact hk h b

end Finds

theorem node_finds (f : Forest α) (x : NodeId) : f.Finds [x] (f.node x) := by
  by_cases hx : f.Allocated x
  · obtain ⟨n, _, hn⟩ := node_of_allocated hx
    rw [hn]
    exact fun y hy => List.mem_singleton.mp hy ▸ hx
  · rw [node, node?_of_not_allocated hx]
    exact .inr ⟨x, List.mem_singleton_self x, hx, rfl⟩

theorem children_of_node {n : Node α} (h : f.node x = .ok n) : f.children x = n.children := by
  rw [node] at h
  cases hthere : f.node? x with
  | none =>
    rw [hthere] at h
    cases h
  | some m =>
    rw [hthere] at h
    cases h
    exact children_of_node? hthere

theorem checkAttachable_finds (f : Forest α) (p c : NodeId) :
    f.Finds [c, p] (f.checkAttachable p c) := by
  refine (f.node_finds c).bind (by simp) fun hc n => ?_
  dsimp only
  split
  · exact .inl trivial
  · refine (f.node_finds p).bind (by simp) fun hp _ => ?_
    split
    · exact .inl trivial
    · exact List.forall_mem_cons.mpr ⟨hc c (List.mem_singleton_self c), hp⟩

theorem checkAllAttachable_finds (f : Forest α) (p : NodeId) (before cs : List NodeId) :
    f.Finds (cs.flatMap ([·, p])) (f.checkAllAttachable p before cs) := by
  induction cs generalizing before with
  | nil => exact nofun
  | cons c rest ih =>
    refine (f.checkAttachable_finds p c).bind (fun x hx => List.mem_append_left _ hx) fun hc _ => ?_
    dsimp only
    split
    · exact .inl trivial
    · refine (ih (c :: before)).mono (fun x hx => List.mem_append_right _ hx) fun hrest x hx => ?_
      exact (List.mem_append.mp hx).elim (hc x) (hrest x)

/-! ### Edits that look first -/

theorem ask_bind (look : Forest α → Except ForestError β) (k : β → Editing α γ) :
    (ask look >>= k) f = match look f with
    | .ok b => k b f
    | .error e => (.error e, f) := by
  have hask : ask look f = (look f, f) := rfl
  generalize look f = o at hask
  cases o with
  | ok b => exact bind_run hask k
  | error e => exact bind_error hask k

theorem change_misses (hx : ¬ f.Allocated x) (g : Node α → Node α) :
    change x g f = (.error (.unallocated x), f) := by
  have hnode : f.node x = .error (.unallocated x) := by rw [node, node?_of_not_allocated hx]
  rw [change, ask_bind, hnode]

/-- A call that looks up some of its nodes before it goes on. -/
theorem missed_of_look {call : Call α} {look : Forest α → Except ForestError β}
    {k : β → Editing α γ} {g : γ → Reply} (hlook : f.Finds nodes (look f))
    (hsub : ∀ x ∈ nodes, x ∈ call.nodes) (hk : (∀ x ∈ nodes, f.Allocated x) → ∀ b, look f = .ok b →
      Missed f call ((g <$> k b) f)) :
    Missed f call ((g <$> (ask look >>= k)) f) := by
  rw [map_run, ask_bind]
  cases ho : look f with
  | ok b =>
    rw [ho] at hlook
    have hrest := hk hlook b ho
    rwa [map_run] at hrest
  | error e =>
    rw [ho] at hlook
    rcases hlook with hrefusal | ⟨x, hx, hmissing, rfl⟩
    · exact .refused hrefusal
    · exact .unallocated (hsub x hx) hmissing

/-! ### Nodes that are made under what is not there -/

theorem newChild_misses (hp : ¬ f.Allocated p) (hne : p ≠ ⟨f.size⟩) (value : α) :
    ∃ g, Editing.newChild p value f = (.error (.unallocated p), g) := by
  have hmade : Editing.newNode value f = (.ok ⟨f.size⟩, (f.newNode value).1) := rfl
  have hnew : (f.newNode value).1.Allocated ⟨f.size⟩ := (allocated_newNode ..).mpr (.inr rfl)
  have hmissing : ¬ (f.newNode value).1.Allocated p :=
    fun h => ((allocated_newNode ..).mp h).elim hp hne
  have hlinked : Editing.setParent (some p) ⟨f.size⟩ (f.newNode value).1 = (.ok (), _) :=
    change_run hnew _
  have hstill : ¬ ((f.newNode value).1.modify ⟨f.size⟩
      fun n => { n with parent := some p }).Allocated p := fun h =>
    hmissing (h.of_size (size_modify ..).symm)
  have hattach : attach p ⟨f.size⟩ (· ++ [⟨f.size⟩]) (f.newNode value).1 =
      (.error (.unallocated p), _) :=
    (bind_run hlinked _).trans (change_misses hstill _)
  exact ⟨_, (bind_run hmade _).trans (bind_error hattach _)⟩

/-- A child of the number that it is about to get is its own parent. -/
theorem newChild_next (f : Forest α) (value : α) :
    ∃ g, Editing.newChild ⟨f.size⟩ value f = (.ok ⟨f.size⟩, g) ∧
    g.size = f.size + 1 ∧ g.Parent ⟨f.size⟩ ⟨f.size⟩ ∧ g.children ⟨f.size⟩ = [⟨f.size⟩] := by
  have hmade : Editing.newNode value f = (.ok ⟨f.size⟩, (f.newNode value).1) := rfl
  have hnew : (f.newNode value).1.Allocated ⟨f.size⟩ := (allocated_newNode ..).mpr (.inr rfl)
  have hthere : (f.newNode value).1.node? ⟨f.size⟩ = some { value } := by
    rw [node?_newNode, if_pos rfl]
  refine ⟨Editing.attached (f.newNode value).1 ⟨f.size⟩ ⟨f.size⟩ (· ++ [⟨f.size⟩]), ?_, ?_, ?_, ?_⟩
  · exact (bind_run hmade _).trans (bind_run (Editing.attach_run hnew hnew _) _)
  · rw [Editing.size_attached]
    exact Array.size_push _
  · rw [Parent, parent?, Editing.node?_attached, hthere]
    simp
  · rw [children, Editing.node?_attached, hthere]
    simp

/-- From a node that is its own parent one never comes to a root. -/
theorem climb_self (h : f.Parent x x) (n : Nat) : f.climb n x = x := by
  induction n with
  | zero => rfl
  | succ n ih =>
    rw [climb, h]
    exact ih

/-! ### Any nodes -/

/-- A call that is given a node that is not there ends at such a node, or changes nothing, unless it
makes a child of itself. -/
theorem Ordered.missed (h : f.Ordered) {call : Call α} (hforeign : call.Foreign f)
    (hnot : ¬ call.UnderItself f) : Missed f call (call.run f) := by
  obtain ⟨x, hx, hmissing⟩ := hforeign
  have hnode : ∀ {y}, y ∈ call.nodes → ∀ z ∈ [y], z ∈ call.nodes :=
    fun hy z hz => List.mem_singleton.mp hz ▸ hy
  have hall : ¬ ∀ y ∈ call.nodes, f.Allocated y := fun hall => hmissing (hall x hx)
  cases call with
  | newNode value => cases hx
  | newChild p value =>
    obtain rfl := List.mem_singleton.mp hx
    obtain ⟨g, hrun⟩ := newChild_misses hmissing (fun hp => hnot ⟨value, by rw [hp]⟩) value
    rw [Call.run, map_run, hrun]
    exact .unallocated hx hmissing
  | setValue y value =>
    exact missed_of_look (f.node_finds y) (fun _ hy => hy) fun hy => absurd hy hall
  | add p cs =>
    cases cs with
    | nil => exact .added rfl
    | cons c rest =>
      refine missed_of_look (f.checkAllAttachable_finds p [] (c :: rest)) (fun y hy => ?_)
        fun hfound => absurd ?_ hall
      · obtain ⟨d, hd, hy⟩ := List.mem_flatMap.mp hy
        rcases List.mem_cons.mp hy with rfl | hy
        · exact List.mem_cons_of_mem _ hd
        · exact List.mem_singleton.mp hy ▸ List.mem_cons_self ..
      · intro y hy
        refine hfound y (List.mem_flatMap.mpr ?_)
        rcases List.mem_cons.mp hy with rfl | hy
        · exact ⟨c, List.mem_cons_self .., by simp⟩
        · exact ⟨y, hy, List.mem_cons_self ..⟩
  | insert p c i =>
    refine missed_of_look (f.node_finds p) (hnode (List.mem_cons_self ..)) fun _ n _ => ?_
    dsimp only
    split
    · exact .refused (e := .indexOutOfRange i n.children.length) trivial
    · refine missed_of_look (f.checkAttachable_finds p c) (by simp [Call.nodes]) fun hboth =>
        absurd ?_ hall
      simpa [Call.nodes, and_comm] using hboth
  | remove p c =>
    refine missed_of_look (f.node_finds p) (hnode (List.mem_cons_self ..)) fun hp n hn => ?_
    by_cases hc : c ∈ n.children
    · refine absurd (List.forall_mem_cons.mpr ⟨hp p (List.mem_singleton_self p),
        List.forall_mem_singleton.mpr ?_⟩) hall
      exact h.allocated_child (children_of_node hn ▸ hc)
    · rw [if_neg hc]
      exact .removed
  | replaceChild p old new =>
    refine missed_of_look (f.node_finds p) (hnode (List.mem_cons_self ..)) fun hp n hn => ?_
    dsimp only
    by_cases hmem : old ∈ n.children
    · rw [if_pos hmem]
      have hp : f.Allocated p := hp p (List.mem_singleton_self p)
      have hold : f.Allocated old := h.allocated_child (children_of_node hn ▸ hmem)
      by_cases hsame : old = new
      · exact absurd (by simp [Call.nodes, hp, hold, ← hsame]) hall
      · rw [if_neg hsame]
        refine missed_of_look (f.checkAttachable_finds p new) (by simp [Call.nodes]) fun hboth =>
          absurd ?_ hall
        simp only [Call.nodes, List.forall_mem_cons] at hboth ⊢
        exact ⟨hp, hold, hboth.1, hboth.2.2⟩
    · rw [if_neg hmem]
      exact .refused (e := .notAChild p old) trivial
  | clear p => exact missed_of_look (f.node_finds p) (fun _ hy => hy) fun hp => absurd hp hall

/-- Calls of any nodes lead only where calls of nodes that are there lead. -/
theorem Answered.reachable (hf : f.Answered) : f.Reachable := by
  induction hf with
  | empty => exact .empty
  | @call f call _ hanswers hnot ih =>
    by_cases hforeign : call.Foreign f
    · have hmissed := ih.ordered.missed hforeign hnot
      generalize call.run f = r at hmissed hanswers
      cases hmissed with
      | unallocated => exact (hanswers _ rfl).elim
      | refused | removed | added => exact ih
    · exact ih.call call fun x hx => Decidable.not_not.mp fun hmissing => hforeign ⟨x, hx, hmissing⟩

/-- In a forest that calls of any nodes lead to, going up ends and only nodes that are there are
linked. A call that is given a node that is not there ends with the error for such a node, or is
refused, or finds nothing to remove or to add, and changes nothing then; the one exception is a call
that makes a child of itself. -/
theorem Answered.foreign_missed (hf : f.Answered) :
    (∀ x, Relation.ReflTransGen f.Parent x (f.root x) ∧ f.parent? (f.root x) = none) ∧
    (∀ p c, c ∈ f.children p ∨ f.parent? c = some p → f.Allocated p ∧ f.Allocated c) ∧
    ∀ call : Call α, call.Foreign f → ¬ call.UnderItself f → Missed f call (call.run f) := by
  have h := hf.reachable.ordered
  refine ⟨h.root, fun p c hlink => ?_, fun call => h.missed⟩
  have hc : c ∈ f.children p := hlink.elim id (h.linked p c).mpr
  exact ⟨allocated_of_mem_children hc, h.allocated_child hc⟩

/-- A node that is not there was no child to remove. Then another one, whose number is the next, is
to replace a child. -/
theorem Answered.foreign_missed_replace :
    let f : Forest String := ⟨#[⟨"a", none, [⟨1⟩]⟩, ⟨"b", some ⟨0⟩, []⟩]⟩
    let call : Call String := .replaceChild ⟨0⟩ ⟨1⟩ ⟨2⟩
    f.Answered ∧ call.Foreign f ∧ ¬ call.UnderItself f ∧
    (call.run f).1 = .error (.unallocated ⟨2⟩) ∧
      Missed f call (call.run f) ∧ f.parent? (f.root ⟨1⟩) = none := by
  intro f call
  have hone : Answered _ := Answered.empty.call (.newNode "a") nofun nofun
  have htwo := hone.call (.newChild ⟨0⟩ "b") nofun (by rintro ⟨_, h⟩; cases h)
  have hf : f.Answered := htwo.call (.remove ⟨0⟩ ⟨7⟩) nofun nofun
  have hforeign : call.Foreign f := ⟨⟨2⟩, by decide, by decide⟩
  have hnot : ¬ call.UnderItself f := nofun
  obtain ⟨hroot, _, hmissed⟩ := hf.foreign_missed
  exact ⟨hf, hforeign, hnot, by rfl, hmissed call hforeign hnot, (hroot ⟨1⟩).2⟩

/-- In the empty forest a child of node 0 is made. It gets the number 0, and is its own parent from
then on. -/
theorem newChild_of_itself :
    let call : Call String := .newChild ⟨0⟩ "a"
    Reachable ({} : Forest String) ∧ call.Foreign {} ∧ (call.run {}).1 = .ok (.made ⟨0⟩) ∧
      ({} : Forest String).parent? ⟨0⟩ = none ∧ (call.run {}).2.parent? ⟨0⟩ = some ⟨0⟩ ∧
      (call.run {}).2.children ⟨0⟩ = [⟨0⟩] ∧
      ∀ n, (call.run {}).2.parent? ((call.run {}).2.climb n ⟨0⟩) ≠ none := by
  intro call
  obtain ⟨f, hrun, _, hself, hchildren⟩ := newChild_next ({} : Forest String) "a"
  have hcall : call.run {} = (.ok (.made ⟨0⟩), f) := by
    show (Reply.made <$> Editing.newChild ⟨0⟩ "a" : Editing String Reply) {} = _
    rw [map_run]
    exact congrArg (fun r => (r.1.map Reply.made, r.2)) hrun
  rw [hcall]
  refine ⟨.empty, ⟨⟨0⟩, by decide, by decide⟩, rfl, rfl, hself, hchildren, fun n => ?_⟩
  show f.parent? (f.climb n ⟨0⟩) ≠ none
  rw [show f.climb n ⟨0⟩ = ⟨0⟩ from climb_self hself n, show f.parent? ⟨0⟩ = some ⟨0⟩ from hself]
  exact nofun

end Packrat.Forest
