import Packrat.Recognition.Session

/-! What the operations of a session do to its parts, and what they leave alone. -/
namespace Packrat
variable {s : Session} {x : RuleId} {pos : Nat} {id : HeadId}

/-- Nothing is remembered in a new session. -/
theorem memo_start (k : RuleId × Nat) (e : Entry) : ({} : Session).memo[k]? ≠ some e := by
  intro he
  rw [show ({} : Session).memo[k]? = none from Std.HashMap.getElem?_empty] at he
  cases he

/-- Other entries are left as they are. -/
theorem setEntry_other {k : RuleId × Nat} (hk : k ≠ (x, pos)) (e : Entry) :
    (s.setEntry x pos e).memo[k]? = s.memo[k]? :=
  (Std.HashMap.getElem?_insert).trans (if_neg fun h => hk (beq_iff_eq.mp h).symm)

/-- Other entries are left as they are. -/
theorem dropEntry_other {k : RuleId × Nat} (hk : k ≠ (x, pos)) :
    (s.dropEntry x pos).memo[k]? = s.memo[k]? :=
  (Std.HashMap.getElem?_erase).trans (if_neg fun h => hk (beq_iff_eq.mp h).symm)

/-! ### Heads -/

/-- Of the heads with one put in, that one has its number, and the others have theirs. -/
theorem heads_insert_eq_some {heads : Std.HashMap HeadId Head} {i : HeadId} {h h₁ : Head} :
    (heads.insert id h)[i]? = some h₁ ↔ i = id ∧ h₁ = h ∨ i ≠ id ∧ heads[i]? = some h₁ := by
  rw [Std.HashMap.getElem?_insert]
  by_cases hi : i = id
  · rw [if_pos (beq_iff_eq.mpr hi.symm), Option.some.injEq]
    exact ⟨fun heq => .inl ⟨hi, heq.symm⟩,
      fun hcase => (hcase.resolve_right fun hother => hother.1 hi).2.symm⟩
  · rw [if_neg fun heq => hi (beq_iff_eq.mp heq).symm]
    exact ⟨fun hs => .inr ⟨hi, hs⟩, fun hcase => (hcase.resolve_left fun hself => hi hself.1).2⟩

theorem modifyHead_eq {h : Head} (hs : s.heads[id]? = some h) (f : Head → Head) :
    s.modifyHead id f = { s with heads := s.heads.insert id (f h) } := by
  simp only [Session.modifyHead, hs]

theorem modifyHead_of_none (hs : s.heads[id]? = none) (f : Head → Head) :
    s.modifyHead id f = s := by
  simp only [Session.modifyHead, hs]

theorem heads_modifyHead (f : Head → Head) (i : HeadId) :
    (s.modifyHead id f).heads[i]? = if i = id then (s.heads[i]?).map f else s.heads[i]? := by
  cases hs : s.heads[id]? with
  | none =>
    rw [modifyHead_of_none hs]
    by_cases hi : i = id
    · rw [if_pos hi, hi, hs, Option.map_none]
    · rw [if_neg hi]
  | some h =>
    rw [modifyHead_eq hs, Std.HashMap.getElem?_insert]
    by_cases hi : i = id
    · rw [if_pos (beq_iff_eq.mpr hi.symm), if_pos hi, hi, hs, Option.map_some]
    · rw [if_neg fun heq => hi (beq_iff_eq.mp heq).symm, if_neg hi]

/-- What a head is known by that its change leaves alone, it is known by after the change. -/
theorem heads_modifyHead_map {α : Type} (view : Head → α) {f : Head → Head}
    (hf : ∀ h, view (f h) = view h) (i : HeadId) :
    ((s.modifyHead id f).heads[i]?).map view = (s.heads[i]?).map view := by
  rw [heads_modifyHead]
  split
  · rw [Option.map_map]
    exact congrArg (Option.map · _) (funext hf)
  · rfl

theorem heads_release_eq_some {i : HeadId} {h : Head} :
    (s.release id).heads[i]? = some h ↔ i ≠ id ∧ s.heads[i]? = some h := by
  rw [Session.release, Std.HashMap.getElem?_erase]
  by_cases hi : i = id
  · rw [if_pos (beq_iff_eq.mpr hi.symm)]
    exact ⟨nofun, fun hs => absurd hi hs.1⟩
  · rw [if_neg fun heq => hi (beq_iff_eq.mp heq).symm]
    exact (and_iff_right hi).symm

@[simp] theorem memo_modifyHead (f : Head → Head) : (s.modifyHead id f).memo = s.memo := by
  rw [Session.modifyHead]
  split <;> rfl

@[simp] theorem frames_modifyHead (f : Head → Head) : (s.modifyHead id f).frames = s.frames := by
  rw [Session.modifyHead]
  split <;> rfl

@[simp] theorem growing_modifyHead (f : Head → Head) : (s.modifyHead id f).growing = s.growing := by
  rw [Session.modifyHead]
  split <;> rfl

@[simp] theorem nextHead_modifyHead (f : Head → Head) :
    (s.modifyHead id f).nextHead = s.nextHead := by
  rw [Session.modifyHead]
  split <;> rfl

/-! ### Memory -/

@[simp] theorem memo_remember (e : Entry) :
    (s.remember x pos e).memo = s.memo.insert (x, pos) e := by
  rw [Session.remember]
  split
  · rw [memo_modifyHead]
    rfl
  · rfl

/-- What is remembered is then the entry. -/
theorem remember_self (e : Entry) : (s.remember x pos e).memo[(x, pos)]? = some e := by
  rw [memo_remember]
  exact Std.HashMap.getElem?_insert_self

theorem remember_other {k : RuleId × Nat} (hk : k ≠ (x, pos)) (e : Entry) :
    (s.remember x pos e).memo[k]? = s.memo[k]? := by
  rw [memo_remember]
  exact setEntry_other hk e

/-- Where no head grows, nothing is to be evaluated anew. -/
theorem not_eligible (h : s.growing[pos]? = none) : ¬ s.isEligible x pos = true := by
  rw [Session.isEligible, h]
  exact Bool.false_ne_true

theorem remember_of_not_growing (h : s.growing[pos]? = none) (e : Entry) :
    s.remember x pos e = s.setEntry x pos e := by
  have hgrowing : (s.setEntry x pos e).growing[pos]? = none := h
  simp only [Session.remember, hgrowing]

theorem remember_of_growing (h : s.growing[pos]? = some id) (e : Entry) :
    s.remember x pos e = (s.setEntry x pos e).modifyHead id fun hd =>
      { hd with written := x :: hd.written } := by
  have hgrowing : (s.setEntry x pos e).growing[pos]? = some id := h
  simp only [Session.remember, hgrowing]

theorem leave_remember (e : Entry) : s.leave.remember x pos e = (s.remember x pos e).leave := by
  simp only [Session.remember, Session.modifyHead, Session.leave, Session.setEntry]
  cases s.growing[pos]? with
  | none => rfl
  | some id =>
    dsimp only
    cases s.heads[id]? <;> rfl

@[simp] theorem frames_remember (e : Entry) : (s.remember x pos e).frames = s.frames := by
  rw [Session.remember]
  split
  · exact frames_modifyHead _
  · rfl

@[simp] theorem growing_remember (e : Entry) : (s.remember x pos e).growing = s.growing := by
  rw [Session.remember]
  split
  · exact growing_modifyHead _
  · rfl

@[simp] theorem nextHead_remember (e : Entry) : (s.remember x pos e).nextHead = s.nextHead := by
  rw [Session.remember]
  split
  · exact nextHead_modifyHead _
  · rfl

/-- What is known of a head without what it saw remembered. -/
theorem heads_remember_map {α : Type} (view : Head → α)
    (hview : ∀ h written, view { h with written } = view h) (e : Entry) (i : HeadId) :
    ((s.remember x pos e).heads[i]?).map view = (s.heads[i]?).map view := by
  rw [Session.remember]
  split
  · exact heads_modifyHead_map view (fun h => hview h _) i
  · rfl

/-- Heads keep their anchors. -/
theorem isAnchor_remember (e : Entry) (i : HeadId) (y : RuleId) (p : Nat) :
    ((s.remember x pos e).heads[i]?).any (·.isAnchor y p) = (s.heads[i]?).any (·.isAnchor y p) := by
  have hview : ((s.remember x pos e).heads[i]?).map (·.isAnchor y p) = (s.heads[i]?).map
      (·.isAnchor y p) :=
    heads_remember_map _ (fun _ _ => rfl) e i
  replace hview := congrArg (Option.any id) hview
  rw [Option.any_map, Option.any_map] at hview
  exact hview

@[simp] theorem top_remember (e : Entry) : (s.remember x pos e).top = s.top := by
  simp only [Session.top, frames_remember, isAnchor_remember]

theorem anchorUnderWay_iff : s.anchorUnderWay id = true ↔
    ∃ f ∈ s.frames, f.head = some id ∧ (s.heads[id]?).any (·.isAnchor f.rule f.pos) = true := by
  cases hs : s.heads[id]? with
  | none => simp [Session.anchorUnderWay, hs]
  | some h => simp [Session.anchorUnderWay, hs]

@[simp] theorem anchorUnderWay_remember (e : Entry) :
    (s.remember x pos e).anchorUnderWay id = s.anchorUnderWay id := by
  rw [Bool.eq_iff_iff, anchorUnderWay_iff, anchorUnderWay_iff, frames_remember]
  simp only [isAnchor_remember]

@[simp] theorem memo_involve : (s.involve id).memo = s.memo := by
  rw [Session.involve]
  split <;> rfl

@[simp] theorem memo_reenter (number : Nat) : (s.reenter number).memo = s.memo := by
  rw [Session.reenter]
  split
  · rfl
  · split <;> exact memo_involve

@[simp] theorem memo_spend : (s.spend x pos).memo = s.memo := by
  rw [Session.spend]
  split
  · exact memo_modifyHead _
  · rfl

theorem foldl_dropEntry (l : List RuleId) (pos : Nat) :
    (l.foldl (·.dropEntry · pos) s).frames = s.frames ∧
    (l.foldl (·.dropEntry · pos) s).heads = s.heads ∧
      (l.foldl (·.dropEntry · pos) s).growing = s.growing ∧
      (l.foldl (·.dropEntry · pos) s).nextHead = s.nextHead := by
  induction l generalizing s with
  | nil => exact ⟨rfl, rfl, rfl, rfl⟩
  | cons x rest ih => exact ih

theorem frames_discard (id : HeadId) (anchor : RuleId) (pos : Nat) :
    (s.discard id anchor pos).frames = s.frames :=
  (foldl_dropEntry ..).1.trans (frames_modifyHead _)

theorem heads_discard (id : HeadId) (anchor : RuleId) (pos : Nat) :
    (s.discard id anchor pos).heads = (s.modifyHead id fun h => { h with written := [] }).heads :=
  (foldl_dropEntry ..).2.1

theorem growing_discard (id : HeadId) (anchor : RuleId) (pos : Nat) :
    (s.discard id anchor pos).growing = s.growing :=
  (foldl_dropEntry ..).2.2.1.trans (growing_modifyHead _)

theorem nextHead_discard (id : HeadId) (anchor : RuleId) (pos : Nat) :
    (s.discard id anchor pos).nextHead = s.nextHead :=
  (foldl_dropEntry ..).2.2.2.trans (nextHead_modifyHead _)

theorem growing_startGrowth (id : HeadId) (pos p : Nat) :
    (s.startGrowth id pos).growing[p]? = if pos = p then some id else s.growing[p]? := by
  simp only [Session.startGrowth, Std.HashMap.getElem?_insert, beq_iff_eq]

theorem growing_endGrowth (id : HeadId) (anchor : RuleId) (pos : Nat) (outer : Option HeadId)
    (p : Nat) :
    (s.endGrowth id anchor pos outer).growing[p]? = if pos = p then outer else s.growing[p]? := by
  have hkept : (s.discard id anchor pos).growing = s.growing := growing_discard ..
  cases outer with
  | none => simp only [Session.endGrowth, hkept, Std.HashMap.getElem?_erase, beq_iff_eq]
  | some i => simp only [Session.endGrowth, hkept, Std.HashMap.getElem?_insert, beq_iff_eq]

theorem memo_foldl_dropEntry (l : List RuleId) (pos : Nat) (k : RuleId × Nat) :
    (l.foldl (·.dropEntry · pos) s).memo[k]? = if k.1 ∈ l ∧
    k.2 = pos then none else s.memo[k]? := by
  induction l generalizing s with
  | nil => simp
  | cons x rest ih =>
    have hdrop : (s.dropEntry x pos).memo[k]? = if k.1 = x ∧
        k.2 = pos then none else s.memo[k]? := by
      by_cases hk : k.1 = x ∧ k.2 = pos
      · obtain rfl : k = (x, pos) := Prod.ext hk.1 hk.2
        rw [if_pos hk]
        exact Std.HashMap.getElem?_erase_self
      · rw [if_neg hk, dropEntry_other fun h => hk (Prod.ext_iff.mp h)]
    rw [List.foldl_cons, ih, hdrop]
    by_cases hpos : k.2 = pos
    · by_cases hx : k.1 = x
      · simp [hpos, hx]
      · simp [hpos, hx]
    · simp [hpos]

/-- What was remembered in a round, and is remembered still. -/
theorem mem_writtenEntries {y : RuleId} {e : Entry} (hy : (y, e) ∈ s.writtenEntries id pos) :
    ∃ h, s.heads[id]? = some h ∧ y ∈ h.written ∧ s.memo[(y, pos)]? = some e := by
  obtain ⟨z, hz, hmap⟩ := List.mem_filterMap.mp hy
  obtain ⟨e', he', heq⟩ := Option.map_eq_some_iff.mp hmap
  cases heq
  cases hs : s.heads[id]? with
  | none =>
    rw [hs] at hz
    cases hz
  | some h =>
    rw [hs] at hz
    exact ⟨h, rfl, hz, he'⟩

/-- What was remembered in the last round is forgotten, but for the anchor's entry, and every rule
that is involved is to be evaluated anew. -/
theorem startRound_eq {h : Head} (hs : s.heads[id]? = some h) (anchor : RuleId) (pos : Nat) :
    (s.startRound id anchor pos).growing = s.growing ∧
      (s.startRound id anchor pos).heads[id]? = some
      { h with written := [], eligible := h.involved } ∧
      ∀ k : RuleId × Nat, (s.startRound id anchor pos).memo[k]? =
        if k.1 ∈ h.written.filter (· ≠ anchor) ∧ k.2 = pos then none else s.memo[k]? := by
  have hwritten : (((s.heads[id]?).map (·.written)).getD []).filter (· ≠ anchor) = h.written.filter
      (· ≠ anchor) := by
    rw [hs, Option.map_some, Option.getD_some]
  rw [Session.startRound, growing_modifyHead, heads_modifyHead, if_pos rfl, memo_modifyHead]
  refine ⟨growing_discard .., ?_, fun k => ?_⟩
  · rw [heads_discard, heads_modifyHead, if_pos rfl, hs]
    rfl
  · rw [Session.discard, hwritten, memo_foldl_dropEntry, memo_modifyHead]

/-- What an application leaves behind that was evaluated anew: its answer for good, or as it is
involved in a head the anchor of which is under way. -/
def Session.Leaves (s : Session) (x : RuleId) (pos : Nat) (a : Answer) : Prop :=
  s.memo[(x, pos)]? = some (.final a) ∨
    ∃ id, s.memo[(x, pos)]? = some (.involved a id) ∧ s.anchorUnderWay id = true

/-- What an application leaves of itself that fails: nothing, or the match that it had grown to. -/
def Session.LeavesFailed (s : Session) (x : RuleId) (pos : Nat) : Prop :=
  s.memo[(x, pos)]? = none ∨ ∃ a, s.memo[(x, pos)]? = some (.final a)

/-! ### Frames and the heads they belong to -/

theorem top_eq {f : Frame} {rest : List Frame} (h : s.frames = f :: rest) :
    s.top = f.head.map fun id => (id, (s.heads[id]?).any (·.isAnchor f.rule f.pos)) := by
  rw [Session.top, h]
  cases hf : f.head <;> simp [hf]

/-- The number of a frame is how many frames are below it. -/
theorem frame?_eq_some_iff {number : Nat} {f : Frame} :
    s.frame? number = some f ↔ ∃ above below, s.frames = above ++ f :: below ∧
    below.length = number := by
  rw [Session.frame?]
  constructor
  · intro h
    obtain ⟨hlt, hf⟩ := List.getElem?_eq_some_iff.mp h
    refine ⟨(s.frames.reverse.drop (number + 1)).reverse, (s.frames.reverse.take number).reverse,
      ?_, ?_⟩
    · have hsplit := List.take_append_drop number s.frames.reverse
      rw [List.drop_eq_getElem_cons hlt, hf] at hsplit
      have hreverse := congrArg List.reverse hsplit
      rw [List.reverse_reverse] at hreverse
      simpa using hreverse.symm
    · rw [List.length_reverse, List.length_take]
      omega
  · rintro ⟨above, below, hframes, rfl⟩
    rw [hframes]
    simp

/-- Frames keep their numbers as others are put on top of them. -/
theorem frame?_of_append {s' : Session} {above : List Frame} (h : s'.frames = above ++ s.frames)
    {number : Nat} {f : Frame} (hf : s.frame? number = some f) : s'.frame? number = some f := by
  obtain ⟨rest, below, hframes, hlength⟩ := frame?_eq_some_iff.mp hf
  refine frame?_eq_some_iff.mpr ⟨above ++ rest, below, ?_, hlength⟩
  rw [h, hframes, List.append_assoc]

/-- A frame is among the lower ones, where it has the same number, or among those above. -/
theorem frame?_append {above below : List Frame} (h : s.frames = above ++ below)
    {number : Nat} {f : Frame} (hf : s.frame? number = some f) :
    below.reverse[number]? = some f ∨ f ∈ above := by
  rw [Session.frame?, h, List.reverse_append, List.getElem?_append] at hf
  split at hf
  · exact .inl hf
  · exact .inr (List.mem_reverse.mp (List.mem_of_getElem? hf))

theorem setHead_append (id : HeadId) (above below : List Frame) (f : Frame) :
    Session.setHead below.length id (above ++ f :: below) = above ++ f.join id :: below := by
  simp [Session.setHead, List.modify_eq_take_drop]

/-- The session with a new head, which the frame of a number anchors. -/
def Session.newHead (s : Session) (number : Nat) (f : Frame) : Session :=
  { s with
    nextHead := s.nextHead + 1
    heads := s.heads.insert s.nextHead { rule := f.rule, pos := f.pos }
    frames := setHead number s.nextHead s.frames }

theorem frames_newHead {above below : List Frame} {f : Frame} (h : s.frames = above ++ f :: below) :
    (s.newHead below.length f).frames = above ++ f.join s.nextHead :: below := by
  rw [Session.newHead, h, setHead_append]

theorem heads_newHead_self (number : Nat) (f : Frame) :
    (s.newHead number f).heads[s.nextHead]? = some { rule := f.rule, pos := f.pos } :=
  Std.HashMap.getElem?_insert_self

theorem frames_involve {h : Head} (hs : s.heads[id]? = some h) :
    (s.involve id).frames = Session.joinFrames id s.frames := by
  simp only [Session.involve, hs]

theorem reenter_of_head {number : Nat} {f : Frame} (hf : s.frame? number = some f)
    (hhead : f.head = some id) : s.reenter number = s.involve id := by
  simp only [Session.reenter, hf, hhead]

theorem reenter_of_no_head {number : Nat} {f : Frame} (hf : s.frame? number = some f)
    (hhead : f.head = none) : s.reenter number = (s.newHead number f).involve s.nextHead := by
  simp only [Session.reenter, hf, hhead, Session.newHead]

theorem mem_foldl_insert {l init : List RuleId} {x : RuleId} :
    x ∈ l.foldl (·.insert ·) init ↔ x ∈ init ∨ x ∈ l := by
  induction l generalizing init with
  | nil => simp
  | cons y rest ih =>
    rw [List.foldl_cons, ih, List.mem_insert_iff, List.mem_cons]
    grind

end Packrat
