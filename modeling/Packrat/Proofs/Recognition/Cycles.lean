import Packrat.Proofs.Recognition.Nesting

/-! Heads are made of cycles.

An application is made for the body of a rule that may call its rule, so what has a frame has led to
whatever is applied (`Call.Begun.led`). Where a rule is applied again that is under way, its frame
has led to this, and the rule is on a cycle of calls at one offset. A head is made there and nowhere
else; at every moment of a run the anchor of each head is on such a cycle (`Moment.cyclic`). -/
namespace Packrat

/-! ### What is involved keeps its keys -/

section
variable {s s' : Session} {id i : HeadId} {hd : Head}

/-- A rule that is applied again involves the frames above in a head, which is a new one if its
frame belongs to none. -/
theorem reenter_cases {P : Session → Prop} {number : Nat} (hnone : P s)
    (hold : ∀ f id, s.frame? number = some f → f.head = some id → P (s.involve id))
    (hnew : ∀ f, s.frame? number = some f → f.head = none →
      P ((s.newHead number f).involve s.nextHead)) :
    P (s.reenter number) := by
  cases hf : s.frame? number with
  | none => rwa [Session.reenter, hf]
  | some f =>
    cases hhead : f.head with
    | some id =>
      rw [reenter_of_head hf hhead]
      exact hold f id hf hhead
    | none =>
      rw [reenter_of_no_head hf hhead]
      exact hnew f hf hhead

theorem keys_joinFrames (id : HeadId) (frames : List Frame) :
    (Session.joinFrames id frames).map Frame.key = frames.map Frame.key := by
  induction frames with
  | nil => rfl
  | cons f rest ih =>
    rw [Session.joinFrames]
    split
    · rfl
    · exact congrArg (List.cons f.key) ih

theorem keys_setHead (number : Nat) (id : HeadId) (frames : List Frame) :
    (Session.setHead number id frames).map Frame.key = frames.map Frame.key := by
  have hkeys : (frames.reverse.modify number (·.join id)).map Frame.key =
      frames.reverse.map Frame.key := by
    refine List.ext_getElem? fun i => ?_
    rw [List.getElem?_map, List.getElem?_map, List.getElem?_modify]
    cases frames.reverse[i]? with
    | none => rfl
    | some f => split <;> rfl
  rw [Session.setHead, List.map_reverse, hkeys, List.map_reverse, List.reverse_reverse]

theorem keys_involve (s : Session) (id : HeadId) :
    (s.involve id).frames.map Frame.key = s.frames.map Frame.key := by
  rw [Session.involve]
  split
  · exact keys_joinFrames id s.frames
  · rfl

theorem keys_reenter (s : Session) (number : Nat) :
    (s.reenter number).frames.map Frame.key = s.frames.map Frame.key := by
  refine reenter_cases (P := fun s' => s'.frames.map Frame.key = s.frames.map Frame.key) rfl
    (fun _ id _ _ => ?_) fun f _ _ => ?_
  · exact keys_involve s id
  · exact (keys_involve ..).trans (keys_setHead ..)

theorem nextHead_involve (s : Session) (id : HeadId) : (s.involve id).nextHead = s.nextHead := by
  rw [Session.involve]
  split <;> rfl

theorem growing_involve (s : Session) (id : HeadId) : (s.involve id).growing = s.growing := by
  rw [Session.involve]
  split <;> rfl

theorem head_involve (hs : (s.involve id).heads[i]? = some hd) :
    ∃ h, s.heads[i]? = some h ∧ hd.key = h.key := by
  cases hthere : s.heads[id]? with
  | none =>
    simp only [Session.involve, hthere] at hs
    exact ⟨hd, hs, rfl⟩
  | some h =>
    simp only [Session.involve, hthere] at hs
    rcases heads_insert_eq_some.mp hs with ⟨rfl, rfl⟩ | ⟨_, hother⟩
    · exact ⟨h, hthere, rfl⟩
    · exact ⟨hd, hother, rfl⟩

end

/-! ### Anchors -/

/-- The heads made since a number was the next one are anchored where `Cyclic` says. -/
structure Anchors (Cyclic : Key → Prop) (n : HeadId) (s : Session) : Prop where
  heads : ∀ (id : HeadId) (h : Head), n ≤ id → s.heads[id]? = some h → Cyclic h.key
  made : s.nextHead = n ∨ ∃ k, Cyclic k

namespace Anchors
variable {Cyclic : Key → Prop} {n : HeadId} {s s' : Session}

theorem congr (h : Anchors Cyclic n s) (hnext : s'.nextHead = s.nextHead)
    (hheads : ∀ (id : HeadId) (h' : Head), s'.heads[id]? = some h' → ∃ h, s.heads[id]? = some h ∧
      h'.key = h.key) :
    Anchors Cyclic n s' := by
  refine ⟨fun id h' hn hs' => ?_, hnext ▸ h.made⟩
  obtain ⟨h₁, hs, heq⟩ := hheads id h' hs'
  exact heq ▸ h.heads id h₁ hn hs

theorem involve (h : Anchors Cyclic n s) (id : HeadId) : Anchors Cyclic n (s.involve id) :=
  h.congr (nextHead_involve s id) fun _ _ => head_involve

theorem newHead (h : Anchors Cyclic n s) (number : Nat) {f : Frame} (hf : Cyclic f.key) :
    Anchors Cyclic n (s.newHead number f) := by
  refine ⟨fun i h' hn hs' => ?_, .inr ⟨f.key, hf⟩⟩
  rcases heads_insert_eq_some.mp hs' with ⟨_, rfl⟩ | ⟨_, hother⟩
  · exact hf
  · exact h.heads i h' hn hother

theorem reenter (h : Anchors Cyclic n s) {number : Nat}
    (hf : ∀ f, s.frame? number = some f → Cyclic f.key) : Anchors Cyclic n (s.reenter number) :=
  reenter_cases h (fun _ id _ _ => h.involve id) fun f hthere _ =>
    (h.newHead number (hf f hthere)).involve _

end Anchors

namespace Manner
open Recognizer

/-- The frames, by their keys. Nothing breaks them. -/
def stack : Manner (List Key) where
  Holds keys s := s.frames.map Frame.key = keys
  Breaks _ _ _ := False
  frame keys key := key :: keys
  left keys _ _ := keys
  grown keys _ _ := keys
  alike h halike := (congrArg _ halike.frames).trans h
  enter x pos h := congrArg (List.cons (x, pos)) h
  leave h _ := by rw [Session.leave, List.map_tail, h, List.tail_cons]
  leave_anchor h _ := by rw [Session.leave, List.map_tail, h, List.tail_cons]
  startGrowth _ _ h := h
  endGrowth {_ _ s' id x pos} _ h := (congrArg _ (Session.Alike.discard s' id x pos).frames).trans h
  release h := h
  reenter h _ _ _ := (keys_reenter ..).trans h
  involve h _ _ _ _ := (keys_involve ..).trans h

/-- Only an application breaks this that finds its rule under way where `Cyclic` does not say so. -/
def anchors (Cyclic : Key → Prop) : Manner HeadId where
  Holds := Anchors Cyclic
  Breaks x pos s := ∃ number f, s.memo[(x, pos)]? = some (.inProgress number) ∧
    s.frame? number = some f ∧ ¬ Cyclic f.key
  frame n _ := n
  left n _ _ := n
  grown n _ _ := n
  alike h halike := h.congr halike.next fun _ _ => halike.head
  enter _ _ h := ⟨h.heads, h.made⟩
  leave h _ := ⟨h.heads, h.made⟩
  leave_anchor h _ := ⟨h.heads, h.made⟩
  startGrowth _ _ h := ⟨h.heads, h.made⟩
  endGrowth {_ _ s' id x pos} _ h := by
    have halike := Session.Alike.discard s' id x pos
    exact h.congr halike.next fun _ _ => halike.head
  release h := h.congr rfl fun _ h' hs => ⟨h', (heads_release_eq_some.mp hs).2, rfl⟩
  reenter {n s x pos number} h _ hbreaks hentry := h.reenter fun f hf => by
    by_contra hnot
    exact hbreaks ⟨number, f, hentry, hf, hnot⟩
  involve h _ _ _ _ := h.involve _

end Manner

namespace Recognizer
open Manner
variable {r : Recognizer} {c c' : Call} {k : Key} {s : Session}

/-- A body that is evaluated in a run applies only what it may call. -/
theorem Begun.calls {depth : Nat} {x y : RuleId} {pos q : Nat} {t : Session}
    (h : r.Begun .evaluate depth x pos s)
    (hasks : Asks (fun work => tracedBody work r x pos) (Task.run r depth .apply) s y q t) :
    r.Calls (x, pos) (y, q) := by
  by_contra hnot
  obtain ⟨c, hready, hcost, dis⟩ := h.disciplined
  refine not_exhausted (tracedBody_settles (fun s e hs => hs.record e) fun z p hcalls => ?_) dis
    hasks
  obtain ⟨hready', hcost'⟩ := hcalls.fits hready hcost
  refine haltAt_upholds (applyWithin_settles r depth c z p hready' hcost') ?_
  rintro ⟨rfl, rfl⟩
  exact absurd hcalls hnot

theorem Calls.led_le {k' : Key} (h : Relation.TransGen r.Calls k k') : k.2 ≤ k'.2 := by
  induction h with
  | single hcalls => exact hcalls.1.le
  | tail _ hcalls ih => exact Nat.le_trans ih hcalls.1.le

theorem Calls.led_refers {k' : Key} (h : Relation.TransGen r.Calls k k') :
    Relation.ReflTransGen r.graph.Refers k.1 k'.1 :=
  Relation.ReflTransGen.lift (r := r.Calls) Prod.fst (fun _ _ hcalls => hcalls.refers)
    _ _ h.to_reflTransGen

/-- The rule at a key may be called again by what it calls. -/
def OnCycle (r : Recognizer) (k : Key) : Prop := Relation.TransGen r.Calls k k

/-- An application under way has led to the call. -/
def Call.LedFrom (r : Recognizer) (k : Key) (c : Call) : Prop :=
  match c.task with
  | .apply => Relation.TransGen r.Calls k c.key
  | .evaluate => Relation.ReflTransGen r.Calls k c.key

theorem Call.LedFrom.begins (h : c.LedFrom r k) (hbegun : c.Begun r) (hbegins : r.Begins c c') :
    c'.LedFrom r k := by
  cases hbegins with
  | evaluates => exact Relation.TransGen.to_reflTransGen h
  | applies hasks => exact Relation.TransGen.tail' h (Begun.calls hbegun hasks)

theorem Call.LedFrom.nested (h : c.LedFrom r k) (hbegun : c.Begun r) (hnested : r.Nested c c') :
    c'.LedFrom r k := by
  induction hnested with
  | refl => exact h
  | tail hnested hbegins ih => exact ih.begins (hbegun.nested hnested) hbegins

theorem Call.Begun.refers (h : c.Begun r) (hnested : r.Nested c c') :
    Relation.ReflTransGen r.graph.Refers c.rule c'.rule := by
  induction hnested with
  | refl => exact .refl
  | tail hnested hbegins ih =>
    cases hbegins with
    | evaluates => exact ih
    | applies hasks => exact ih.tail (Begun.calls (h.nested hnested) hasks).refers

/-- Besides the frames that there are, a body has one of its own. -/
theorem Call.Begun.keys (h : c.Begun r) (hbegins : r.Begins c c') :
    c'.session.frames.map Frame.key = c.session.frames.map Frame.key ∨
      c.task = .apply ∧ c'.session.frames.map Frame.key = c.key ::
        c.session.frames.map Frame.key := by
  have hkept := stack.kept (r := r) (c := c) (fun _ _ _ => id) rfl
  obtain ⟨keys, hpasses, hkeys⟩ := hkept.begins h.not_exhausted c' hbegins
  cases hbegins with
  | applies => exact .inl (hkeys.trans hpasses)
  | evaluates =>
    cases hpasses with
    | anew | grown => exact .inl hkeys
    | frame => exact .inr ⟨rfl, hkeys⟩

/-- What has a frame has led to what is begun. -/
theorem Call.Begun.led (h : c.Begun r) : ∀ f ∈ c.session.frames, c.LedFrom r f.key := by
  suffices hall : ∀ k ∈ c.session.frames.map Frame.key, c.LedFrom r k from fun f hf =>
      hall f.key (List.mem_map_of_mem hf)
  refine h.induct (P := fun c => ∀ k ∈ c.session.frames.map Frame.key, c.LedFrom r k) ?_ ?_
  · intro x pos s hs k hk
    rw [show List.map Frame.key _ = [] from congrArg _ hs.disciplined.frames_nil] at hk
    cases hk
  · intro c c' hbegun hbegins hled k hk
    rcases hbegun.keys hbegins with heq | ⟨htask, heq⟩
    · exact (hled k (heq ▸ hk)).begins hbegun hbegins
    · rw [heq] at hk
      rcases List.mem_cons.mp hk with rfl | hk
      · cases hbegins with
        | evaluates => exact .refl
        | applies => cases htask
      · exact (hled k hk).begins hbegun hbegins

/-- A rule that is applied where it is under way is on a cycle of calls. -/
theorem Call.Begun.anchors_unbroken {Cyclic : Key → Prop} (h : c.Begun r)
    (hcyclic : ∀ c', r.Nested c c' → r.OnCycle c'.key → Cyclic c'.key) :
    (anchors Cyclic).Unbroken r c := by
  rintro c' hnested htask ⟨number, f, hentry, hf, hnot⟩
  have hbegun := h.nested hnested
  obtain ⟨_, _, _, dis⟩ := hbegun.disciplined
  obtain ⟨f', hf', hkey⟩ := dis.frame_of_inProgress hentry
  cases hf'.symm.trans hf
  have hled : c'.LedFrom r f.key := hbegun.led f (List.mem_reverse.mp (List.mem_of_getElem? hf))
  rw [Call.LedFrom, htask, hkey] at hled
  exact hnot (hkey ▸ hcyclic c' hnested hled)

/-- An application of a session between others keeps what is known of heads, and so it is known of
whatever it begins. -/
theorem Reachable.apply_anchors {Cyclic : Key → Prop} {x : RuleId} {pos : Nat} {n : HeadId}
    (hs : r.Reachable s) (hcyclic : ∀ c, r.Nested ⟨.apply, r.depthBound, x, pos, s⟩ c →
      r.OnCycle c.key → Cyclic c.key)
    (h : Anchors Cyclic n s) : Anchors Cyclic n (r.apply x pos s).2 := by
  rw [Recognizer.apply]
  by_cases hx : r.graph.contains x = true
  · rw [if_pos hx]
    have hbegun : Call.Begun r ⟨.apply, r.depthBound, x, pos, s⟩ := Begun.first pos hs hx
    exact ((anchors Cyclic).kept (hbegun.anchors_unbroken hcyclic) h).ends
  · rw [if_neg hx]
    exact h

theorem Reachable.cyclic (h : r.Reachable s) : Anchors r.OnCycle 0 s := by
  induction h with
  | start =>
    refine ⟨fun id h _ hs => ?_, .inl rfl⟩
    cases Std.HashMap.getElem?_empty.symm.trans hs
  | apply x pos hs ih => exact hs.apply_anchors (fun _ _ hcycle => hcycle) ih

theorem Call.Begun.kept_cyclic (h : c.Begun r) (hc : Anchors r.OnCycle 0 c.session) :
    (anchors r.OnCycle).Kept r c (0 : HeadId) :=
  (anchors r.OnCycle).kept (h.anchors_unbroken fun _ _ hcycle => hcycle) hc

theorem Call.Begun.cyclic (h : c.Begun r) : Anchors r.OnCycle 0 c.session := by
  refine h.induct (P := fun c => Anchors r.OnCycle 0 c.session) (fun _ _ s hs => hs.cyclic) ?_
  intro c c' hbegun hbegins hc
  obtain ⟨n, hpasses, hn⟩ := (hbegun.kept_cyclic hc).begins hbegun.not_exhausted c' hbegins
  cases hbegins with
  | applies => exact hpasses ▸ hn
  | evaluates => cases hpasses <;> exact hn

/-- At every moment of a run each head is anchored on a cycle of calls at one offset. -/
theorem Moment.cyclic (h : r.Moment s) {id : HeadId} {hd : Head}
    (hs : s.heads[id]? = some hd) : r.OnCycle hd.key := by
  suffices hall : Anchors r.OnCycle 0 s from hall.heads id hd (Nat.zero_le id) hs
  cases h with
  | between hs => exact hs.cyclic
  | @begins task depth x pos s h => exact Call.Begun.cyclic (c := ⟨task, depth, x, pos, s⟩) h
  | @ends task depth x pos s h =>
    have hbegun : Call.Begun r ⟨task, depth, x, pos, s⟩ := h
    exact (hbegun.kept_cyclic hbegun.cyclic).ends

end Recognizer

end Packrat
