import Packrat.Recognition.Session

/-! What is under way in a recognition, and how a session keeps track of it.

A session has a frame for each application whose body is evaluated, but none for one
that has answered and grows; the head that grows at a position hides the one that grew
there before. A `Scene` is the whole picture: all that is under way, frames and growths, in
the order in which it began (`Scene.trail`).

`Tracked c s` says that frames, heads and growing heads of the session are those of the
scene. What makes recognition work is in two of its fields. `guarded`: the rules that a
head involves, offers for evaluation or has seen remembered are none of those that were
under way at its position before its anchor, or that were answered for good; so whatever a
head does, it leaves alone all that its anchor was applied for, and all that has been handed
out. `spared`: a rule is not on offer while a frame of its own is under way. -/
namespace Packrat

/-- What is remembered, is remembered of a rule at a position. -/
abbrev Key := RuleId × Nat

def Frame.key (f : Frame) : Key := (f.rule, f.pos)

def Head.key (h : Head) : Key := (h.rule, h.pos)

theorem Head.isAnchor_iff {h : Head} {rule : RuleId} {pos : Nat} :
    h.isAnchor rule pos = true ↔ h.key = (rule, pos) := by
  simp [Head.isAnchor, Head.key]

/-- An application under way: its body is evaluated, or it has answered and grows. -/
structure Activity where
  rule : RuleId
  pos : Nat
  /-- The head that grows. -/
  grows : Option HeadId := none

def Activity.key (a : Activity) : Key := (a.rule, a.pos)

/-- The head that grows at a position: that of the innermost growth. -/
def growingAt : List Activity → Nat → Option HeadId
  | [], _ => none
  | a :: below, pos => if a.pos = pos ∧ a.grows.isSome then a.grows else growingAt below pos

structure Scene where
  /-- What is under way, the innermost first. -/
  trail : List Activity := []
  /-- By head, at most how many rules of the graph are still on offer. -/
  caps : HeadId → Nat := fun _ => 0
  /-- Heads whose anchor is to be kept in mind, also after their release. -/
  known : HeadId → Key → Prop := fun _ _ => False
  /-- What was answered for good before all that is under way. -/
  settled : Key → Answer → Prop := fun _ _ => False
  /-- Numbers of frames that belong to a head which another application anchors. -/
  tied : Nat → Prop := fun _ => False

namespace Scene

def keys (trail : List Activity) : List Key := trail.map Activity.key

/-- The applications that have a frame. -/
def frameKeys (trail : List Activity) : List Key := keys (trail.filter (·.grows.isNone))

/-- What a head has to leave alone if its anchor was begun above `outer`. -/
def Reserved (c : Scene) (outer : List Activity) (k : Key) : Prop :=
  k ∈ keys outer ∨ ∃ a, c.settled k a

def push (c : Scene) (a : Activity) : Scene := { c with trail := a :: c.trail }

/-- The scene with another bound for a head. -/
def cap (c : Scene) (id : HeadId) (n : Nat) : Scene :=
  { c with caps := fun i => if i = id then n else c.caps i }

/-- The scene with a rule no longer on offer, which only matters for rules of the graph. -/
def spend (c : Scene) (g : RuleGraph) (id : HeadId) (x : RuleId) : Scene :=
  c.cap id (if g.contains x then c.caps id - 1 else c.caps id)

/-- The scene with one more frame that belongs to another's head. -/
def tie (c : Scene) (number : Nat) : Scene := { c with tied := fun n => c.tied n ∨ n = number }

/-- The scene with one more head to be kept in mind. -/
def know (c : Scene) (id : HeadId) (k : Key) : Scene :=
  { c with known := fun i k' => c.known i k' ∨ i = id ∧ k' = k }

end Scene

/-- A head that was made, and is the head of that application unless it was released. -/
def Session.Knows (s : Session) (id : HeadId) (k : Key) : Prop :=
  id < s.nextHead ∧ ∀ h, s.heads[id]? = some h → h.key = k

/-- The application at a key anchors a head: by its frame, or because it grows. -/
def Session.Anchored (s : Session) (trail : List Activity) (id : HeadId) (k : Key) : Prop :=
  (∃ f ∈ s.frames, f.head = some id ∧ f.key = k) ∨ ∃ a ∈ trail, a.grows = some id ∧ a.key = k

/-- The rules that a head deals with at its position. -/
def Head.rules (h : Head) : List RuleId := h.involved ++ (h.eligible ++ h.written)

/-- How many rules of a graph a head has still on offer. -/
def RuleGraph.onOffer (g : RuleGraph) (h : Head) : Nat := g.ids.countP (h.eligible.contains ·)

/-- A frame that belongs to a head is at its position, and is its anchor or stands on a frame that
belongs to it as well. -/
def Tagged (s : Session) : List Frame → Prop
  | [] => True
  | f :: below => (∀ id, f.head = some id → ∃ h, s.heads[id]? = some h ∧ h.pos = f.pos ∧
      (f.key = h.key ∨ ∃ e ∈ below.head?, e.head = some id)) ∧ Tagged s below

/-- The frame belongs to a head which another application anchors. -/
def Session.Tied (s : Session) (f : Frame) : Prop :=
  ∃ id h, f.head = some id ∧ s.heads[id]? = some h ∧ h.key ≠ f.key

structure Tracked (g : RuleGraph) (c : Scene) (s : Session) : Prop where
  sorted : c.trail.Pairwise fun a b => b.pos ≤ a.pos
  distinct : (Scene.keys c.trail).Nodup
  frames_eq : s.frames.map Frame.key = Scene.frameKeys c.trail
  tagged : Tagged s s.frames
  growing_eq : ∀ p, s.growing[p]? = growingAt c.trail p
  growth : ∀ a ∈ c.trail, ∀ id, a.grows = some id → ∃ h, s.heads[id]? = some h ∧ h.key = a.key ∧
    g.onOffer h ≤ c.caps id
  guarded : ∀ outer, outer <:+ c.trail → ∀ id h, s.heads[id]? = some h →
    s.Anchored c.trail id h.key → h.key ∉ Scene.keys outer →
      ∀ x ∈ h.rules, ¬ c.Reserved outer (x, h.pos)
  spared : ∀ a below, a :: below <:+ c.trail → a.grows = none →
    ∀ id h, growingAt below a.pos = some id → s.heads[id]? = some h → a.rule ∉ h.eligible
  made : ∀ id h, s.heads[id]? = some h → id < s.nextHead
  nodup : ∀ (id : HeadId) (h : Head), s.heads[id]? = some h → h.involved.Nodup ∧ h.eligible.Nodup
  known : ∀ id k, c.known id k → s.Knows id k
  settled : ∀ k a, c.settled k a → k ∉ Scene.keys c.trail
  tied : ∀ number f, c.tied number → s.frame? number = some f → s.Tied f

/-! ### Trails -/

theorem mem_keys {trail : List Activity} {k : Key} :
    k ∈ Scene.keys trail ↔ ∃ a ∈ trail, a.key = k := List.mem_map

theorem keys_suffix {outer trail : List Activity} (h : outer <:+ trail) {k : Key}
    (hk : k ∈ Scene.keys outer) : k ∈ Scene.keys trail := by
  obtain ⟨a, ha, rfl⟩ := mem_keys.mp hk
  exact mem_keys.mpr ⟨a, h.subset ha, rfl⟩

theorem mem_frameKeys {trail : List Activity} {k : Key} :
    k ∈ Scene.frameKeys trail ↔ ∃ a ∈ trail, a.grows = none ∧ a.key = k := by
  simp only [Scene.frameKeys, mem_keys, List.mem_filter, Option.isNone_iff_eq_none, and_assoc]

theorem frameKeys_sublist (trail : List Activity) :
    (Scene.frameKeys trail).Sublist (Scene.keys trail) :=
  List.filter_sublist.map _

@[simp] theorem frameKeys_frame (rule : RuleId) (pos : Nat) (trail : List Activity) :
    Scene.frameKeys (⟨rule, pos, none⟩ :: trail) = (rule, pos) :: Scene.frameKeys trail := rfl

@[simp] theorem frameKeys_growth (rule : RuleId) (pos : Nat) (id : HeadId) (trail : List Activity) :
    Scene.frameKeys (⟨rule, pos, some id⟩ :: trail) = Scene.frameKeys trail := rfl

theorem frameKeys_append (above below : List Activity) :
    Scene.frameKeys (above ++ below) = Scene.frameKeys above ++ Scene.frameKeys below := by
  simp only [Scene.frameKeys, Scene.keys, List.filter_append, List.map_append]

/-- An application may be made at a position: nothing under way is further ahead, and only frames
that are there are said to be tied. -/
def Scene.Ready (c : Scene) (pos : Nat) : Prop :=
  (∀ a ∈ c.trail, a.pos ≤ pos) ∧ ∀ number, c.tied number → number < (Scene.frameKeys c.trail).length

/-- Nothing is under way. -/
theorem Scene.Ready.start (settled : Key → Answer → Prop) (pos : Nat) :
    Scene.Ready { settled } pos :=
  ⟨nofun, nofun⟩

theorem Scene.Ready.mono {c : Scene} {pos q : Nat} (h : c.Ready pos) (hq : pos ≤ q) : c.Ready q :=
  ⟨fun a ha => Nat.le_trans (h.1 a ha) hq, h.2⟩

theorem Scene.Ready.push {c : Scene} {pos : Nat} (h : c.Ready pos) (x : RuleId)
    (grows : Option HeadId) : (c.push ⟨x, pos, grows⟩).Ready pos := by
  refine ⟨fun a ha => ?_, fun number hn => ?_⟩
  · rcases List.mem_cons.mp ha with rfl | ha
    · exact Nat.le_refl _
    · exact h.1 a ha
  · have hlt := h.2 number hn
    cases grows with
    | none => exact Nat.lt_succ_of_lt hlt
    | some id => exact hlt

theorem growingAt_eq_some {trail : List Activity} {pos : Nat} {id : HeadId}
    (h : growingAt trail pos = some id) : ∃ a ∈ trail, a.pos = pos ∧ a.grows = some id := by
  induction trail with
  | nil => cases h
  | cons a below ih =>
    rw [growingAt] at h
    by_cases hpos : a.pos = pos ∧ a.grows.isSome = true
    · rw [if_pos hpos] at h
      exact ⟨a, List.mem_cons_self .., hpos.1, h⟩
    · rw [if_neg hpos] at h
      obtain ⟨b, hb, hgrows⟩ := ih h
      exact ⟨b, List.mem_cons_of_mem _ hb, hgrows⟩

theorem growingAt_append (above below : List Activity) (pos : Nat) :
    growingAt (above ++ below) pos = (growingAt above pos).or (growingAt below pos) := by
  induction above with
  | nil => rfl
  | cons a above ih =>
    rw [List.cons_append, growingAt, growingAt, ih]
    by_cases h : a.pos = pos ∧ a.grows.isSome = true
    · rw [if_pos h, if_pos h]
      obtain ⟨id, hid⟩ := Option.isSome_iff_exists.mp h.2
      rw [hid]
      rfl
    · rw [if_neg h, if_neg h]

/-- Nothing grows past all that is under way. -/
theorem growingAt_eq_none {trail : List Activity} {pos : Nat} (h : ∀ a ∈ trail, a.pos ≠ pos) :
    growingAt trail pos = none := by
  cases hg : growingAt trail pos with
  | none => rfl
  | some id =>
    obtain ⟨a, ha, hpos, _⟩ := growingAt_eq_some hg
    exact absurd hpos (h a ha)

@[simp] theorem growingAt_frame (rule : RuleId) (pos : Nat) (trail : List Activity) (p : Nat) :
    growingAt (⟨rule, pos, none⟩ :: trail) p = growingAt trail p := by
  simp [growingAt]

theorem growingAt_growth (rule : RuleId) (pos : Nat) (id : HeadId) (trail : List Activity)
    (p : Nat) :
    growingAt (⟨rule, pos, some id⟩ :: trail) p = if pos = p then some id
    else growingAt trail p := by
  simp [growingAt]

theorem Scene.Reserved.suffix {c : Scene} {outer trail : List Activity} {k : Key}
    (h : c.Reserved outer k) (houter : outer <:+ trail) : c.Reserved trail k :=
  h.imp (keys_suffix houter) id

/-- What grows at the position of a key was begun after anything under way at the key. -/
def Clear (c : Scene) (k : Key) : Prop :=
  ∀ outer, outer <:+ c.trail → ∀ a ∈ c.trail, ∀ id, a.grows = some id →
    growingAt c.trail k.2 = some id → a.key ∉ Scene.keys outer → ¬ c.Reserved outer k

/-- What is on offer at its position is nothing that is under way in a frame, or that was answered
for good. -/
structure Offered (c : Scene) (k : Key) : Prop where
  clear : Clear c k
  no_frame : ∀ a ∈ c.trail, a.grows = none → a.key ≠ k
  not_settled : ∀ a, ¬ c.settled k a

theorem clear_of_free {c : Scene} {k : Key} (h : ¬ c.Reserved c.trail k) : Clear c k :=
  fun _ houter _ _ _ _ _ _ hk => h (hk.suffix houter)

theorem countP_lt {α : Type} {p q : α → Bool} {l : List α} (hpq : ∀ a ∈ l, p a → q a) {a : α}
    (ha : a ∈ l) (hq : q a) (hp : ¬ p a) : l.countP p < l.countP q := by
  induction l with
  | nil => cases ha
  | cons b rest ih =>
    have hrest : rest.countP p ≤ rest.countP q :=
      List.countP_mono_left fun d hd => hpq d (List.mem_cons_of_mem _ hd)
    have hb := hpq b (List.mem_cons_self ..)
    rw [List.countP_cons, List.countP_cons]
    rcases List.mem_cons.mp ha with rfl | ha
    · rw [if_neg hp, if_pos hq]
      omega
    · have := ih (fun d hd => hpq d (List.mem_cons_of_mem _ hd)) ha
      have hone : (if p b = true then 1 else 0) ≤ if q b = true then 1 else 0 := by
        by_cases hpb : p b = true
        · simp [hpb, hb hpb]
        · simp [hpb]
      omega

namespace Tracked
variable {g : RuleGraph} {c : Scene} {s : Session}

theorem anchored_mem (hframes : s.frames.map Frame.key = Scene.frameKeys c.trail)
    {id : HeadId} {k : Key} (h : s.Anchored c.trail id k) : k ∈ Scene.keys c.trail := by
  rcases h with ⟨f, hf, _, rfl⟩ | ⟨a, ha, _, rfl⟩
  · have hk : f.key ∈ Scene.frameKeys c.trail := hframes ▸ List.mem_map_of_mem hf
    exact (frameKeys_sublist _).subset hk
  · exact mem_keys.mpr ⟨a, ha, rfl⟩

theorem frame_mem (t : Tracked g c s) {f : Frame} (hf : f ∈ s.frames) :
    ∃ a ∈ c.trail, a.grows = none ∧ a.key = f.key :=
  mem_frameKeys.mp (t.frames_eq ▸ List.mem_map_of_mem hf)

/-- The frames are those of different applications. -/
theorem frames_nodup (t : Tracked g c s) : (s.frames.map Frame.key).Nodup := by
  rw [t.frames_eq]
  exact t.distinct.sublist (frameKeys_sublist _)

/-- The frame of a number is that of the application of this number. -/
theorem frame?_key (t : Tracked g c s) (number : Nat) :
    (s.frame? number).map Frame.key = (Scene.frameKeys c.trail).reverse[number]? := by
  rw [Session.frame?, ← List.getElem?_map, List.map_reverse, t.frames_eq]

theorem frames_sorted (t : Tracked g c s) : s.frames.Pairwise fun f f' => f'.pos ≤ f.pos := by
  have h : (s.frames.map Frame.key).Pairwise fun k k' => k'.2 ≤ k.2 := by
    rw [t.frames_eq]
    exact (List.pairwise_map.mpr t.sorted).sublist (frameKeys_sublist _)
  exact List.pairwise_map.mp h

/-- Frames are in the order of the trail: a frame below one of the outer part is in the outer
part. -/
theorem below_mem (t : Tracked g c s) {outer : List Activity} (houter : outer <:+ c.trail)
    {above below : List Frame} {f f' : Frame} (hframes : s.frames = above ++ below)
    (hf' : f' ∈ above) (hf : f ∈ below) (hmem : f'.key ∈ Scene.keys outer) :
    f.key ∈ Scene.keys outer := by
  obtain ⟨inner, htrail⟩ := houter
  have hkeys : above.map Frame.key ++ below.map Frame.key = Scene.frameKeys inner ++
      Scene.frameKeys outer := by
    rw [← List.map_append, ← hframes, t.frames_eq, ← htrail, frameKeys_append]
  have hsub : ∀ l : List Activity, ∀ k ∈ Scene.frameKeys l, k ∈ Scene.keys l :=
    fun l k hk => (frameKeys_sublist l).subset hk
  rcases List.append_eq_append_iff.mp hkeys with ⟨more, hinner, _⟩ | ⟨more, _, hbelow⟩
  · -- The frame above would be in the inner part, whose keys are not those of the outer part.
    have hin : f'.key ∈ Scene.keys inner := by
      apply hsub
      rw [hinner]
      exact List.mem_append_left _ (List.mem_map_of_mem hf')
    have hdistinct := t.distinct
    rw [← htrail, Scene.keys, List.map_append] at hdistinct
    exact absurd rfl ((List.nodup_append.mp hdistinct).2.2 _ hin _ hmem)
  · apply hsub
    rw [hbelow]
    exact List.mem_append_right _ (List.mem_map_of_mem hf)

/-- The head that grows at a position is there and is that of a growth under way. -/
theorem growing_head (t : Tracked g c s) {pos : Nat} {id : HeadId} (h : s.growing[pos]? = some id) :
    ∃ hd, s.heads[id]? = some hd ∧ hd.pos = pos ∧ hd.key ∈ Scene.keys c.trail ∧
      s.Anchored c.trail id hd.key ∧ g.onOffer hd ≤ c.caps id := by
  rw [t.growing_eq] at h
  obtain ⟨a, ha, hpos, hgrows⟩ := growingAt_eq_some h
  obtain ⟨hd, hhd, hkey, hcap⟩ := t.growth a ha id hgrows
  refine ⟨hd, hhd, ?_, mem_keys.mpr ⟨a, ha, hkey.symm⟩, .inr ⟨a, ha, hgrows, hkey.symm⟩, hcap⟩
  rw [← hpos]
  exact congrArg Prod.snd hkey

end Tracked

end Packrat
