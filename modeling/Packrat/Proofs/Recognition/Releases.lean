import Packrat.Proofs.Recognition.Cycles

/-! How heads are released.

An anchor releases its head when it has left its frame and grown. It knows the head by its frame, so
the head is released as long as the frame belongs to it. But the frame may be involved in another
cycle, that of an anchor further out which is applied again while the frame is under way
(`Session.takesOver`). Then the anchor answers as one of those that are involved: it does not grow,
and its head is never released (`heads_kept`).

Where no application takes over an anchor's frame, each head has its anchor's frame or grows at
every moment, and none is left between applications, whether they end with an answer or an error
(`heads_released`). -/
namespace Packrat

/-- Whether a frame above the first that belongs to the head is that of another anchor. -/
def Session.anchorsAbove (s : Session) (id : HeadId) : Bool :=
  (s.frames.takeWhile fun f => f.head ≠ some id).any fun f =>
    (f.head.bind (s.heads[·]?)).any (·.isAnchor f.rule f.pos)

/-- Whether an application closes a cycle that the frame of another anchor is to be involved in. -/
def Session.takesOver (x : RuleId) (pos : Nat) (s : Session) : Bool :=
  !s.isEligible x pos &&
    match s.remembered? x pos with
    | some (.inProgress number) =>
      match s.frame? number with
      | some f =>
        match f.head with
        | some id => s.anchorsAbove id
        | none => (s.newHead number f).anchorsAbove s.nextHead
      | none => false
    | some (.involved _ id) => s.anchorUnderWay id && s.anchorsAbove id
    | _ => false

/-- The anchor of a head is under way, in a frame that belongs to the head. -/
def Session.OnStack (s : Session) (id : HeadId) (k : Key) : Prop :=
  ∃ f ∈ s.frames, f.head = some id ∧ f.key = k

/-- What is under way: the keys of the frames, the anchors that have left theirs with their heads,
and the head that grows at each offset. -/
structure Outset where
  keys : List Key := []
  left : HeadId → Key → Prop := fun _ _ => False
  growing : Nat → Option HeadId := fun _ => none

namespace Outset

def frame (o : Outset) (key : Key) : Outset := { o with keys := key :: o.keys }

def leave (o : Outset) (id : HeadId) (key : Key) : Outset :=
  { o with left := fun i k => o.left i k ∨ i = id ∧ k = key }

def grow (o : Outset) (id : HeadId) (key : Key) : Outset :=
  { o.leave id key with growing := fun p => if key.2 = p then some id else o.growing p }

end Outset

/-- Each head has its anchor's frame, or the anchor has left it. -/
structure Attended (o : Outset) (s : Session) : Prop where
  keys : s.frames.map Frame.key = o.keys
  growing : ∀ p, s.growing[p]? = o.growing p
  heads : ∀ (id : HeadId) (h : Head), s.heads[id]? = some h → o.left id h.key ∨ s.OnStack id h.key

section
variable {o : Outset} {s s' : Session} {id : HeadId} {key : Key} {x : RuleId} {pos : Nat}

theorem mem_joinFrames {frames : List Frame} {f : Frame} (hf : f ∈ frames)
    (hnot : f ∉ frames.takeWhile fun f => f.head ≠ some id) : f ∈ Session.joinFrames id frames := by
  induction frames with
  | nil => exact hf
  | cons e rest ih =>
    rw [Session.joinFrames]
    by_cases he : e.head = some id
    · rw [if_pos he]
      exact hf
    · rw [if_neg he]
      rw [List.takeWhile_cons_of_pos (by simpa using he)] at hnot
      obtain ⟨hne, hnot⟩ := not_or.mp (mt List.mem_cons.mpr hnot)
      exact List.mem_cons_of_mem _ (ih ((List.mem_cons.mp hf).resolve_left hne) hnot)

namespace Attended

theorem alike (h : Attended o s) (halike : s.Alike s') : Attended o s' := by
  refine ⟨halike.frames ▸ h.keys, fun p => halike.growing ▸ h.growing p, fun id h' hs' => ?_⟩
  obtain ⟨h₁, hs, hkey⟩ := halike.head hs'
  rw [Session.OnStack, halike.frames, hkey]
  exact h.heads id h₁ hs

/-- Heads keep their anchors' frames where none is involved that is another anchor's. -/
theorem involve (h : Attended o s) (hclear : s.anchorsAbove id = false) :
    Attended o (s.involve id) := by
  have hframes : ∀ i h', s.heads[i]? = some h' → s.OnStack i h'.key →
      (s.involve id).OnStack i h'.key := by
    rintro i h' hs ⟨f, hf, hhead, hkey⟩
    refine ⟨f, ?_, hhead, hkey⟩
    rw [Session.involve]
    split
    · refine mem_joinFrames hf fun habove => ?_
      have hanchor : (f.head.bind (s.heads[·]?)).any (·.isAnchor f.rule f.pos) = true := by
        rw [hhead, Option.bind_some, hs, Option.any_some]
        exact Head.isAnchor_iff.mpr hkey.symm
      rw [Session.anchorsAbove] at hclear
      exact absurd (List.any_eq_true.mpr ⟨f, habove, hanchor⟩)
        (by rw [hclear]; exact Bool.false_ne_true)
    · exact hf
  refine ⟨(keys_involve s id).trans h.keys, fun p => (congrArg (·[p]?) (growing_involve s id)).trans
    (h.growing p), ?_⟩
  intro i h' hs'
  obtain ⟨h₁, hs, hkey⟩ := head_involve hs'
  rw [hkey]
  exact (h.heads i h₁ hs).imp_right (hframes i h₁ hs)

theorem newHead (h : Attended o s) {number : Nat} {f : Frame} (hf : s.frame? number = some f)
    (hhead : f.head = none) : Attended o (s.newHead number f) := by
  obtain ⟨above, below, hframes, rfl⟩ := frame?_eq_some_iff.mp hf
  have hnew := frames_newHead hframes
  refine ⟨(keys_setHead ..).trans h.keys, h.growing, fun i h' hs' => ?_⟩
  rcases heads_insert_eq_some.mp hs' with ⟨rfl, rfl⟩ | ⟨_, hs⟩
  · refine .inr ⟨f.join s.nextHead, ?_, rfl, rfl⟩
    rw [hnew]
    exact List.mem_append_right _ (List.mem_cons_self ..)
  · refine (h.heads i h' hs).imp_right fun hon => ?_
    obtain ⟨e, he, hid, hkey⟩ := hon
    refine ⟨e, ?_, hid, hkey⟩
    rw [hframes] at he
    rw [hnew]
    rcases List.mem_append.mp he with he | he
    · exact List.mem_append_left _ he
    rcases List.mem_cons.mp he with rfl | he
    · cases hhead.symm.trans hid
    · exact List.mem_append_right _ (List.mem_cons_of_mem _ he)

theorem reenter (h : Attended o s) (hel : ¬ s.isEligible x pos = true) {number : Nat}
    (hentry : s.memo[(x, pos)]? = some (.inProgress number)) (hclear : ¬ s.takesOver x pos = true) :
    Attended o (s.reenter number) := by
  have hentry' : s.remembered? x pos = some (.inProgress number) := hentry
  refine reenter_cases h (fun f id hf hhead => ?_) fun f hf hhead => ?_
  · exact h.involve (by simpa [Session.takesOver, hel, hentry', hf, hhead] using hclear)
  · exact (h.newHead hf hhead).involve
      (by simpa [Session.takesOver, hel, hentry', hf, hhead] using hclear)

theorem enter (h : Attended o s) (x : RuleId) (pos : Nat) :
    Attended (o.frame (x, pos)) (s.enter x pos) := by
  refine ⟨congrArg (List.cons (x, pos)) h.keys, h.growing, fun id h' hs => ?_⟩
  exact (h.heads id h' hs).imp_right fun ⟨f, hf, hhead, hkey⟩ =>
    ⟨f, List.mem_cons_of_mem _ hf, hhead, hkey⟩

/-- Only the head that the innermost frame anchors is without it when the frame has been left. -/
theorem leave (h : Attended (o.frame key) s) {left : HeadId → Key → Prop}
    (hold : ∀ i k, o.left i k → left i k) (hanchor : ∀ i, s.top = some (i, true) → left i key) :
    Attended { o with left } s.leave := by
  obtain ⟨f, rest, hframes, hkey, hrest⟩ := List.map_eq_cons_iff.mp h.keys
  have hleave : s.leave.frames = rest := by
    rw [Session.leave, hframes]
    rfl
  refine ⟨hleave ▸ hrest, h.growing, fun id h' hs => ?_⟩
  have hs' : s.heads[id]? = some h' := hs
  rcases h.heads id h' hs with hleft | ⟨e, he, hid, hekey⟩
  · exact .inl (hold _ _ hleft)
  rw [hframes] at he
  rcases List.mem_cons.mp he with rfl | he
  · have htop : s.top = some (id, true) := by
      rw [top_eq hframes, hid, Option.map_some, hs', Option.any_some,
        Head.isAnchor_iff.mpr hekey.symm]
    exact .inl ((hekey.symm.trans hkey) ▸ hanchor id htop)
  · exact .inr ⟨e, hleave ▸ he, hid, hekey⟩

theorem startGrowth (h : Attended (o.leave id (x, pos)) s) :
    Attended (o.grow id (x, pos)) (s.startGrowth id pos) := by
  refine ⟨h.keys, fun p => ?_, h.heads⟩
  rw [growing_startGrowth, show s.growing[p]? = o.growing p from h.growing p]
  rfl

theorem endGrowth (h : Attended (o.grow id (x, pos)) s') {outer : Option HeadId}
    (houter : outer = o.growing pos) :
    Attended (o.leave id (x, pos)) (s'.endGrowth id x pos outer) := by
  have hd := h.alike (.discard s' id x pos)
  refine ⟨hd.keys, fun p => ?_, hd.heads⟩
  have hold : s'.growing[p]? = if pos = p then some id else o.growing p := h.growing p
  rw [growing_endGrowth]
  show _ = o.growing p
  by_cases hp : pos = p
  · rw [if_pos hp, houter, hp]
  · rw [if_neg hp, hold, if_neg hp]

theorem release (h : Attended (o.leave id key) s) : Attended o (s.release id) := by
  refine ⟨h.keys, h.growing, fun i h' hs => ?_⟩
  obtain ⟨hne, hthere⟩ := heads_release_eq_some.mp hs
  rcases h.heads i h' hthere with (hleft | ⟨heq, _⟩) | hframe
  · exact .inl hleft
  · exact absurd heq hne
  · exact .inr hframe

/-- Where nothing is under way there are no heads. -/
theorem heads_empty (h : Attended {} s) : s.heads.isEmpty = true := by
  rw [Std.HashMap.isEmpty_iff_forall_not_mem]
  intro i hi
  obtain ⟨hd, hthere⟩ := Option.isSome_iff_exists.mp (Std.HashMap.mem_iff_isSome_getElem?.mp hi)
  obtain ⟨f, hf, _⟩ := (h.heads i hd hthere).resolve_left fun h => h
  rw [List.map_eq_nil_iff.mp h.keys] at hf
  cases hf

end Attended

end

namespace Manner
open Recognizer

/-- Only an application breaks this that takes over the frame of another anchor. -/
def attended : Manner Outset where
  Holds := Attended
  Breaks x pos s := s.takesOver x pos = true
  frame := Outset.frame
  left := Outset.leave
  grown := Outset.grow
  alike h halike := h.alike halike
  enter x pos h := h.enter x pos
  leave h htop := h.leave (fun _ _ => id) fun id h => absurd h (htop id)
  leave_anchor h htop :=
    h.leave (fun _ _ => .inl) fun _ h => .inr (by cases htop.symm.trans h; exact ⟨rfl, rfl⟩)
  startGrowth _ _ h := h.startGrowth
  endGrowth {_ s _ _ _ pos} h h' := h'.endGrowth (h.growing pos)
  release h := h.release
  reenter h hel hbreaks hentry := h.reenter hel hentry hbreaks
  involve {_ s x pos seed id} h hel hbreaks hentry hunder := by
    have hentry' : s.remembered? x pos = some (.involved seed id) := hentry
    exact h.involve (by simpa [Session.takesOver, hel, hentry', hunder] using hbreaks)

end Manner

namespace Recognizer
open Manner
variable {r : Recognizer} {c c₀ : Call} {s : Session} {o : Outset} {x : RuleId} {pos : Nat}

/-- No application that is nested in the call takes over the frame of another anchor. -/
def Call.Apart (r : Recognizer) (c : Call) : Prop :=
  ∀ c', r.Nested c c' → c'.task = .apply → ¬ c'.session.takesOver c'.rule c'.pos = true

theorem Call.Apart.nested (h : c₀.Apart r) (hnested : r.Nested c₀ c) : c.Apart r := fun c' hc' =>
  h c' (hnested.trans hc')

theorem Call.Apart.unbroken (h : c.Apart r) : attended.Unbroken r c := h

/-- A run that stops where a frame is taken over shows whether one is. -/
theorem Call.Apart.of_applyUnless {depth : Nat}
    (h : (r.applyUnless Session.takesOver depth x pos s).1 ≠ .error .exhausted) :
    Call.Apart r ⟨.apply, depth, x, pos, s⟩ := fun _ hnested htask hbad =>
  h ((Call.halts_of_bad htask hbad).of_nested hnested)

/-- The call is made for a round in which the body of an anchor is evaluated while its head
grows. -/
def Call.GrownIn (r : Recognizer) (c₀ c : Call) (id : HeadId) (k : Key) : Prop :=
  ∃ round, r.Nested c₀ round ∧ r.Nested round c ∧ round.task = .evaluate ∧ round.key = k ∧
    round.session.growing[k.2]? = some id

/-- The anchors that have left their frames before a call do so to grow. -/
theorem Call.Apart.attended (h : c₀.Apart r) (hbegun : c₀.Begun r) (ho : Attended o c₀.session)
    (hleft : ∀ id k, ¬ o.left id k) (hnested : r.Nested c₀ c) :
    ∃ o, Attended o c.session ∧ ∀ id k, o.left id k → c₀.GrownIn r c id k := by
  induction hnested with
  | refl => exact ⟨o, ho, fun id k hk => absurd hk (hleft id k)⟩
  | @tail c c' hnested hbegins ih =>
    obtain ⟨o, ho, hgrown⟩ := ih
    have hkept := Manner.attended.kept (h.nested hnested).unbroken ho
    obtain ⟨o', hpasses, ho'⟩ := hkept.begins (hbegun.nested hnested).not_exhausted c' hbegins
    have hgrown' : ∀ id k, o.left id k → c₀.GrownIn r c' id k := by
      intro id k hk
      obtain ⟨round, hround, hc, hrest⟩ := hgrown id k hk
      exact ⟨round, hround, hc.tail hbegins, hrest⟩
    refine ⟨o', ho', ?_⟩
    cases hbegins with
    | applies => exact hpasses ▸ hgrown'
    | evaluates =>
      cases hpasses with
      | anew | frame => exact hgrown'
      | grown i =>
        rintro id k (hk | ⟨rfl, rfl⟩)
        · exact hgrown' id k hk
        · exact ⟨_, hnested.tail (.evaluates ‹_›), .refl, rfl, rfl,
            (ho'.growing _).trans (if_pos rfl)⟩

/-- The sessions that applications lead to that take over no frame of another anchor. -/
inductive Orderly (r : Recognizer) : Session → Prop where
  | start : r.Orderly {}
  | apply {s : Session} (x : RuleId) (pos : Nat) : r.Orderly s →
      Call.Apart r ⟨.apply, r.depthBound, x, pos, s⟩ →
    r.Orderly (r.apply x pos s).2

theorem Orderly.reachable (h : r.Orderly s) : r.Reachable s := by
  induction h with
  | start => exact .start
  | apply x pos _ _ ih => exact .apply x pos ih

theorem Reachable.attended (hs : r.Reachable s) (hempty : s.heads.isEmpty = true) :
    Attended {} s := by
  refine ⟨congrArg _ hs.disciplined.frames_nil, hs.disciplined.not_growing, fun id h hthere => ?_⟩
  exact absurd (Std.HashMap.mem_iff_isSome_getElem?.mpr (hthere ▸ rfl))
    (Std.HashMap.isEmpty_iff_forall_not_mem.mp hempty id)

theorem Orderly.heads_empty (h : r.Orderly s) : s.heads.isEmpty = true := by
  induction h with
  | start => exact Std.HashMap.isEmpty_empty
  | apply x pos hs hapart ih =>
    rw [Recognizer.apply]
    split
    · exact (Manner.attended.kept hapart.unbroken (hs.reachable.attended ih)).ends.heads_empty
    · exact ih

/-- If no application takes over the frame of another anchor, no head is left when an application of
a session has ended, with an answer or an error; and as each call begins or ends that is made for
it, each head has its anchor's frame on the stack, or it grows. -/
theorem heads_released (hs : r.Orderly s) (hx : r.graph.contains x = true)
    (hapart : Call.Apart r ⟨.apply, r.depthBound, x, pos, s⟩) :
    (r.apply x pos s).2.heads.isEmpty = true ∧
      ∀ c, r.Nested ⟨.apply, r.depthBound, x, pos, s⟩ c → ∀ t, t = c.session ∨ t = (c.run r).2 →
        ∀ (id : HeadId) (h : Head), t.heads[id]? = some h →
          t.OnStack id h.key ∨ Call.GrownIn r ⟨.apply, r.depthBound, x, pos, s⟩ c id h.key := by
  refine ⟨(Orderly.apply x pos hs hapart).heads_empty, fun c hnested t ht id h hthere => ?_⟩
  have hbegun : Call.Begun r ⟨.apply, r.depthBound, x, pos, s⟩ := Begun.first pos hs.reachable hx
  obtain ⟨o, ho, hgrown⟩ :=
    hapart.attended hbegun (hs.reachable.attended hs.heads_empty) (fun _ _ h => h) hnested
  have hattended : Attended o t := by
    rcases ht with rfl | rfl
    · exact ho
    · exact (Manner.attended.kept (hapart.nested hnested).unbroken ho).ends
  exact ((hattended.heads id h hthere).imp_left (hgrown id h.key)).symm

set_option maxRecDepth 20000 in
/-- A list makes a head at each offset where it is applied, and releases it. -/
theorem heads_released_list :
    let g : RuleGraph := ⟨#[⟨"list", .choice [⟨1⟩, ⟨2⟩], {}⟩, ⟨"more", .sequence [⟨0⟩, ⟨2⟩], {}⟩,
      ⟨"x", .literal "x", {}⟩]⟩
    let r : Recognizer := { graph := g, buffer := .ofList ['x', 'x'] }
    let s := (r.apply ⟨0⟩ 1 {}).2
    r.Orderly s ∧ r.graph.contains ⟨0⟩ = true ∧ Call.Apart r ⟨.apply, r.depthBound, ⟨0⟩, 0, s⟩ ∧
      (r.apply ⟨0⟩ 0 s).2.nextHead = 2 ∧ (r.apply ⟨0⟩ 0 s).2.heads.isEmpty = true := by
  intro g r s
  have hfirst : (r.applyUnless Session.takesOver r.depthBound ⟨0⟩ 1 {}).1 =
      .ok (.node ⟨0⟩ 1 1 [.node ⟨2⟩ 1 1 []]) := by cbv
  have hnext : (r.applyUnless Session.takesOver r.depthBound ⟨0⟩ 0 (r.apply ⟨0⟩ 1 {}).2).1 =
      .ok (.node ⟨0⟩ 0 2 [.node ⟨1⟩ 0 2 [.node ⟨0⟩ 0 1 [.node ⟨2⟩ 0 1 []], .node ⟨2⟩ 1 1 []]]) := by
        cbv
  have hmade : (r.apply ⟨0⟩ 0 (r.apply ⟨0⟩ 1 {}).2).2.nextHead = 2 := by cbv
  have hs : r.Orderly s :=
    .apply ⟨0⟩ 1 .start (.of_applyUnless fun h => by cases hfirst.symm.trans h)
  have hapart : Call.Apart r ⟨.apply, r.depthBound, ⟨0⟩, 0, s⟩ :=
    .of_applyUnless fun h => by cases hnext.symm.trans h
  exact ⟨hs, rfl, hapart, hmade, (heads_released hs rfl hapart).1⟩

set_option maxRecDepth 20000 in
/-- The rule b is applied again first, and is the anchor of a head. Then a is applied again, further
out, and takes over the frame of b; so b does not grow, and its head is still there when a has
ended. -/
theorem heads_kept :
    let g : RuleGraph := ⟨#[⟨"a", .sequence [⟨1⟩, ⟨5⟩], {}⟩, ⟨"b", .choice [⟨2⟩, ⟨3⟩, ⟨4⟩], {}⟩,
      ⟨"by", .sequence [⟨1⟩, ⟨6⟩], {}⟩, ⟨"az", .sequence [⟨0⟩, ⟨7⟩], {}⟩, ⟨"c", .literal "c", {}⟩,
      ⟨"x", .literal "x", {}⟩, ⟨"y", .literal "y", {}⟩, ⟨"z", .literal "z", {}⟩]⟩
    let r : Recognizer := { graph := g, buffer := .ofList ['c', 'y', 'y', 'x'] }
    r.Reachable (r.apply ⟨0⟩ 0 {}).2 ∧ (r.apply ⟨0⟩ 0 {}).1 = .ok (.fail ⟨0⟩ 0) ∧
      ((r.apply ⟨0⟩ 0 {}).2.heads[(0 : HeadId)]?).map Head.key = some (⟨1⟩, 0) ∧
      (r.apply ⟨0⟩ 0 {}).2.frames = [] ∧ (r.apply ⟨0⟩ 0 {}).2.growing[0]? = none := by
  intro g r
  have hanswer : (r.apply ⟨0⟩ 0 {}).1 = .ok (.fail ⟨0⟩ 0) := by cbv
  have hkept : ((r.apply ⟨0⟩ 0 {}).2.heads[(0 : HeadId)]?).map Head.key = some (⟨1⟩, 0) := by cbv
  have hs : r.Reachable (r.apply ⟨0⟩ 0 {}).2 := .apply ⟨0⟩ 0 .start
  exact ⟨hs, hanswer, hkept, hs.disciplined.frames_nil, hs.disciplined.not_growing 0⟩

end Recognizer

end Packrat
