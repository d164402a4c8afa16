import Packrat.Proofs.Recognition.Heads

/-! How cycles are found.

A rule that is applied again where it is under way becomes the anchor of a head
(`Tracked.newHead`), and the frames above it join that head (`Tracked.involve`). All of them
are at the anchor's position, for applications never go back in the buffer. -/
namespace Packrat.Tracked
variable {g : RuleGraph} {c : Scene} {s s' : Session}

theorem nodup_foldl_insert {l init : List RuleId} (h : init.Nodup) :
    (l.foldl (·.insert ·) init).Nodup := by
  induction l generalizing init with
  | nil => exact h
  | cons y rest ih =>
    refine ih ?_
    simp only [List.insert]
    by_cases hy : init.elem y = true
    · rw [if_pos hy]
      exact h
    · rw [if_neg hy]
      exact List.nodup_cons.mpr ⟨fun hmem => hy (List.contains_iff_mem.mpr hmem), h⟩

/-- The frames above the first that belongs to a head, and those from it on. -/
theorem frames_split {frames : List Frame} {id : HeadId} (h : ∃ f ∈ frames, f.head = some id) :
    ∃ above f below, frames = above ++ f :: below ∧ (∀ e ∈ above, e.head ≠ some id) ∧
    f.head = some id ∧ Session.joinFrames id frames = above.map (·.join id) ++ f :: below ∧
      Session.rulesAbove id frames = above.map (·.rule) := by
  induction frames with
  | nil =>
    obtain ⟨f, hf, _⟩ := h
    cases hf
  | cons e rest ih =>
    by_cases he : e.head = some id
    · refine ⟨[], e, rest, rfl, nofun, he, ?_, ?_⟩
      · rw [Session.joinFrames, if_pos he]
        rfl
      · simp [Session.rulesAbove, he]
    · have hrest : ∃ f ∈ rest, f.head = some id := by
        obtain ⟨f, hf, hid⟩ := h
        rcases List.mem_cons.mp hf with rfl | hf
        · exact absurd hid he
        · exact ⟨f, hf, hid⟩
      obtain ⟨above, f, below, rfl, habove, hf, hjoin, hrules⟩ := ih hrest
      refine ⟨e :: above, f, below, rfl, ?_, hf, ?_, ?_⟩
      · intro d hd
        rcases List.mem_cons.mp hd with rfl | hd
        · exact he
        · exact habove d hd
      · rw [Session.joinFrames, if_neg he, hjoin]
        rfl
      · rw [Session.rulesAbove, List.takeWhile_cons_of_pos (by simpa using he), List.map_cons]
        exact congrArg _ hrules

/-- Frames that join the head of the one that they stand on. -/
theorem tagged_join {above below : List Frame} {f : Frame} {id : HeadId} {h : Head}
    (hbelow : Tagged s (f :: below)) (hf : f.head = some id) (hs : s.heads[id]? = some h)
    (hpos : ∀ e ∈ above, e.pos = h.pos) : Tagged s (above.map (·.join id) ++ f :: below) := by
  induction above with
  | nil => exact hbelow
  | cons e above ih =>
    refine ⟨fun i hi => ?_, ih fun d hd => hpos d (List.mem_cons_of_mem _ hd)⟩
    cases hi
    refine ⟨h, hs, (hpos e (List.mem_cons_self ..)).symm, .inr ?_⟩
    cases above with
    | nil => exact ⟨f, rfl, hf⟩
    | cons d rest => exact ⟨d.join id, rfl, rfl⟩

/-- A frame that belonged to no head, and so was no anchor, may be replaced by one with a head. -/
theorem tagged_replace {above below : List Frame} {f f' : Frame}
    (ht : Tagged s (above ++ f :: below)) (hnone : f.head = none) (hf' : Tagged s (f' :: below)) :
    Tagged s (above ++ f' :: below) := by
  induction above with
  | nil => exact hf'
  | cons e above ih =>
    refine ⟨fun i hi => ?_, ih ht.2⟩
    obtain ⟨h, hs, hpos, hkey | ⟨d, hd, hid⟩⟩ := ht.1 i hi
    · exact ⟨h, hs, hpos, .inl hkey⟩
    · cases above with
      | nil =>
        cases hd
        cases hnone.symm.trans hid
      | cons d' rest => exact ⟨h, hs, hpos, .inr ⟨d, hd, hid⟩⟩

/-- The anchor of a frame's head is the frame or below it. -/
theorem anchor_from (t : Tracked g c s) {above below : List Frame} {f : Frame}
    {id : HeadId} {h : Head} (hframes : s.frames = above ++ f :: below) (hf : f.head = some id)
    (hs : s.heads[id]? = some h) :
    h.pos = f.pos ∧ ∃ anchor ∈ f :: below, anchor.head = some id ∧ anchor.key = h.key := by
  obtain ⟨h', hs', hpos, hanchor⟩ := (tagged_suffix (hframes ▸ t.tagged)).anchor hf
  cases hs.symm.trans hs'
  exact ⟨hpos, hanchor⟩

/-- All that is above a frame of a head at the innermost position is at this position. -/
theorem above_pos (t : Tracked g c s) {above below : List Frame} {f : Frame}
    {id : HeadId} {h : Head} (hframes : s.frames = above ++ f :: below) (hf : f.head = some id)
    (hs : s.heads[id]? = some h) (hpos : ∀ a ∈ c.trail, a.pos ≤ h.pos) :
    ∀ e ∈ above, e.pos = h.pos := by
  intro e he
  have hemem : e ∈ s.frames := by
    rw [hframes]
    exact List.mem_append_left _ he
  obtain ⟨a, ha, _, hkey⟩ := t.frame_mem hemem
  have hle : e.pos ≤ h.pos := Nat.le_trans (Nat.le_of_eq (congrArg Prod.snd hkey).symm) (hpos a ha)
  have hge := t.frames_sorted
  rw [hframes] at hge
  have hfe : f.pos ≤ e.pos := (List.pairwise_append.mp hge).2.2 e he f (List.mem_cons_self ..)
  have hhf := (t.anchor_from hframes hf hs).1
  omega

/-- A head involves the rules of the frames above one that belongs to it, for its anchor is none of
them. -/
theorem involveRules (t : Tracked g c s) {above below : List Frame} {f : Frame}
    {id : HeadId} {h : Head} (hframes : s.frames = above ++ f :: below) (hf : f.head = some id)
    (hs : s.heads[id]? = some h) (hpos : ∀ a ∈ c.trail, a.pos ≤ h.pos) :
    Tracked g c { s with
      heads := s.heads.insert id
        { h with involved := (above.map (·.rule)).foldl (·.insert ·) h.involved } } := by
  refine t.withHead hs rfl (nodup_foldl_insert (t.nodup id h hs).1) (t.nodup id h hs).2
    (fun hle => hle) (fun _ _ => Nat.le_refl _) ?_ fun _ _ _ _ _ hmem => hmem
  intro outer houter _ hout x hx
  have hcase : x ∈ h.rules ∨ x ∈ above.map (·.rule) := by
    simp only [Head.mem_rules, mem_foldl_insert] at hx ⊢
    grind
  rcases hcase with hx | hx
  · exact .inl hx
  · obtain ⟨e, he, rfl⟩ := List.mem_map.mp hx
    refine .inr ?_
    obtain ⟨_, anchor, hanchor, _, hakey⟩ := t.anchor_from hframes hf hs
    have hekey : e.key = (e.rule, h.pos) := by rw [Frame.key, t.above_pos hframes hf hs hpos e he]
    rintro (hmem | ⟨a, hsettled⟩)
    · rw [← hakey] at hout
      exact hout (t.below_mem houter hframes he hanchor (hekey ▸ hmem))
    · have hmem : e ∈ s.frames := by
        rw [hframes]
        exact List.mem_append_left _ he
      exact t.settled _ a hsettled
        (hekey ▸ mem_keys.mpr ((t.frame_mem hmem).imp fun _ ha => ⟨ha.1, ha.2.2⟩))

/-- A head at the innermost position involves the frames above those that belong to it. -/
theorem involve (t : Tracked g c s) {id : HeadId} {h : Head} (hs : s.heads[id]? = some h)
    (hframe : ∃ f ∈ s.frames, f.head = some id) (hpos : ∀ a ∈ c.trail, a.pos ≤ h.pos) :
    Tracked g c (s.involve id) := by
  obtain ⟨above, f, below, hframes, _, hf, hjoin, hrules⟩ := frames_split hframe
  obtain ⟨_, anchor, hanchor, hahead, hakey⟩ := t.anchor_from hframes hf hs
  have habove := t.above_pos hframes hf hs hpos
  -- First the head, with the frames as they were.
  have th := t.involveRules hframes hf hs hpos
  have hkeys : (above.map (·.join id) ++ f :: below).map Frame.key = s.frames.map Frame.key := by
    rw [hframes, List.map_append, List.map_append, List.map_map]
    rfl
  rw [Session.involve, hs]
  simp only [hjoin, hrules]
  refine { th with
    frames_eq := hkeys.trans t.frames_eq
    tagged := ?tagged
    guarded := fun outer houter i h₁ hi hanc => th.guarded outer houter i h₁ hi ?anchored
    tied := ?tied }
  case tagged =>
    have htagged := tagged_suffix (hframes ▸ th.tagged :)
    exact (tagged_join htagged hf Std.HashMap.getElem?_insert_self habove).congr fun i h hi _ =>
      ⟨h, hi, rfl⟩
  case tied =>
    intro number e hn he
    rcases frame?_append rfl he with he | he
    · have hold : s.frame? number = some e := by
        rw [Session.frame?, hframes, List.reverse_append]
        exact List.getElem?_append_left (List.getElem?_eq_some_iff.mp he).1 ▸ he
      exact (th.tied number e hn hold).congr fun i h hi _ => ⟨h, hi, rfl⟩
    · -- A frame that has joined the head stands above its anchor.
      obtain ⟨d, hd, rfl⟩ := List.mem_map.mp he
      refine ⟨id, _, rfl, Std.HashMap.getElem?_insert_self, fun hkey => ?_⟩
      have hnodup := t.frames_nodup
      rw [hframes, List.map_append] at hnodup
      refine (List.nodup_append.mp hnodup).2.2 d.key (List.mem_map_of_mem hd) anchor.key
        (List.mem_map_of_mem hanchor) ?_
      exact (hakey.trans hkey).symm
  case anchored =>
    rcases hanc with ⟨e, he, hid, hk⟩ | hgrows
    · refine .inl ?_
      rw [hframes]
      rcases List.mem_append.mp he with he | he
      · -- A frame that has joined the head anchors what the head's anchor does.
        obtain ⟨e, he, rfl⟩ := List.mem_map.mp he
        cases hid
        cases Std.HashMap.getElem?_insert_self.symm.trans hi
        exact ⟨anchor, List.mem_append_right _ hanchor, hahead, hakey⟩
      · exact ⟨e, List.mem_append_right _ he, hid, hk⟩
    · exact .inr hgrows

/-- A new head to which no frame belongs yet. -/
theorem addHead (t : Tracked g c s) (x : RuleId) (pos : Nat) : Tracked g c { s with
    nextHead := s.nextHead + 1
    heads := s.heads.insert s.nextHead { rule := x, pos } } := by
  have hkept : ∀ (i : HeadId) (h : Head), s.heads[i]? = some h →
      (s.heads.insert s.nextHead { rule := x, pos })[i]? = some h := fun i h hi =>
    heads_insert_eq_some.mpr (.inr ⟨Nat.ne_of_lt (t.made i h hi), hi⟩)
  refine { t with
    tagged := t.tagged.congr fun i h hi _ => ⟨h, hkept i h hi, rfl⟩
    growth := ?growth
    guarded := ?guarded
    spared := ?spared
    made := ?made
    nodup := ?nodup
    known := ?known
    tied := fun number f hn hf => (t.tied number f hn hf).congr fun i h hi _ =>
      ⟨h, hkept i h hi, rfl⟩ }
  case growth =>
    intro a ha i hi
    obtain ⟨h, hs, hrest⟩ := t.growth a ha i hi
    exact ⟨h, hkept i h hs, hrest⟩
  case guarded =>
    intro outer houter i h hi hanchored hout y hy
    rcases heads_insert_eq_some.mp hi with ⟨_, rfl⟩ | ⟨_, hs⟩
    · cases hy
    · exact t.guarded outer houter i h hs hanchored hout y hy
  case spared =>
    intro a below hsuffix hframe i h hgrow hi
    rcases heads_insert_eq_some.mp hi with ⟨_, rfl⟩ | ⟨_, hs⟩
    · exact List.not_mem_nil
    · exact t.spared a below hsuffix hframe i h hgrow hs
  case made =>
    intro i h hi
    rcases heads_insert_eq_some.mp hi with ⟨rfl, _⟩ | ⟨_, hs⟩
    · exact Nat.lt_succ_self _
    · exact Nat.lt_succ_of_lt (t.made i h hs)
  case nodup =>
    intro i h hi
    rcases heads_insert_eq_some.mp hi with ⟨_, rfl⟩ | ⟨_, hs⟩
    · exact ⟨List.nodup_nil, List.nodup_nil⟩
    · exact t.nodup i h hs
  case known =>
    intro i k hk
    have hknown := t.known i k hk
    refine hknown.congr (Nat.le_succ _) fun h hi => ?_
    rcases heads_insert_eq_some.mp hi with ⟨rfl, _⟩ | ⟨_, hs⟩
    · exact absurd hknown.1 (Nat.lt_irrefl _)
    · exact ⟨h, hs, rfl⟩

/-- A new head for an application whose frame belongs to none. -/
theorem newHead (t : Tracked g c s) {number : Nat} {f : Frame} (hf : s.frame? number = some f)
    (hnone : f.head = none) : Tracked g c (s.newHead number f) := by
  obtain ⟨above, below, hframes, rfl⟩ := frame?_eq_some_iff.mp hf
  have hset : Session.setHead below.length s.nextHead s.frames = above ++ f.join s.nextHead ::
      below := by
    rw [hframes, setHead_append]
  have hkeys : (above ++ f.join s.nextHead :: below).map Frame.key = s.frames.map Frame.key := by
    rw [hframes, List.map_append, List.map_append]
    rfl
  -- First the head, with the frames as they were.
  have th := t.addHead f.rule f.pos
  rw [Session.newHead, hset]
  refine { th with
    frames_eq := hkeys.trans t.frames_eq
    tagged := ?tagged
    guarded := ?guarded
    tied := ?tied }
  case tagged =>
    have htagged := (hframes ▸ th.tagged :)
    refine (tagged_replace htagged hnone ⟨fun i hi => ?_, (tagged_suffix htagged).2⟩).congr
      fun i h hi _ => ⟨h, hi, rfl⟩
    cases hi
    exact ⟨_, Std.HashMap.getElem?_insert_self, rfl, .inl rfl⟩
  case tied =>
    intro number e hn he
    rw [Session.frame?, ← hset, Session.setHead, List.reverse_reverse, List.getElem?_modify] at he
    obtain ⟨d, hd, rfl⟩ := Option.map_eq_some_iff.mp he
    have htied := th.tied number d hn hd
    by_cases hnumber : below.length = number
    · subst hnumber
      cases hf.symm.trans hd
      obtain ⟨_, _, hhead, _⟩ := htied
      cases hnone.symm.trans hhead
    · rw [if_neg hnumber]
      exact htied.congr fun i h hi _ => ⟨h, hi, rfl⟩
  case guarded =>
    intro outer houter i h hi hanc hout y hy
    refine th.guarded outer houter i h hi ?_ hout y hy
    rcases hanc with ⟨e, he, hid, hk⟩ | hgrows
    · refine .inl ⟨e, ?_, hid, hk⟩
      have hne : e ≠ f.join s.nextHead := by
        rintro rfl
        -- The frame belongs to the new head, which deals with no rule.
        cases hid
        cases Std.HashMap.getElem?_insert_self.symm.trans hi
        cases hy
      rw [hframes]
      simp only [List.mem_cons, List.mem_append] at he ⊢
      grind
    · exact .inr hgrows

/-- A rule is applied again where it is under way, in the frame of this number. -/
theorem reenter (t : Tracked g c s) {number : Nat} {f : Frame} (hf : s.frame? number = some f)
    (hpos : ∀ a ∈ c.trail, a.pos ≤ f.pos) : Tracked g c (s.reenter number) := by
  obtain ⟨above, below, hframes, rfl⟩ := frame?_eq_some_iff.mp hf
  cases hhead : f.head with
  | some id =>
    rw [reenter_of_head hf hhead]
    have hmem : f ∈ s.frames := by
      rw [hframes]
      exact List.mem_append_right _ (List.mem_cons_self ..)
    obtain ⟨h, hs, hhpos, _⟩ := t.tagged.mem hmem hhead
    exact t.involve hs ⟨f, hmem, hhead⟩ fun b hb => hhpos ▸ hpos b hb
  | none =>
    rw [reenter_of_no_head hf hhead]
    refine (t.newHead hf hhead).involve (heads_newHead_self ..) ⟨f.join s.nextHead, ?_, rfl⟩ hpos
    rw [frames_newHead hframes]
    exact List.mem_append_right _ (List.mem_cons_self ..)

/-! ### Frames above one that is applied again -/

/-- With its first frame a head has all frames down to its anchor. -/
theorem tagged_down {e : Frame} {rest : List Frame} {id : HeadId} (ht : Tagged s (e :: rest))
    (hid : e.head = some id) :
    ∃ h above anchor below, s.heads[id]? = some h ∧ e :: rest = above ++ anchor :: below ∧
    anchor.key = h.key ∧ ∀ f ∈ above, f.head = some id ∧ f.key ≠ h.key := by
  induction rest generalizing e with
  | nil =>
    obtain ⟨h, hs, _, hkey | ⟨d, hd, _⟩⟩ := ht.1 id hid
    · exact ⟨h, [], e, [], hs, rfl, hkey, nofun⟩
    · cases hd
  | cons d rest ih =>
    obtain ⟨h, hs, _, hbelow⟩ := ht.1 id hid
    by_cases hkey : e.key = h.key
    · exact ⟨h, [], e, d :: rest, hs, rfl, hkey, nofun⟩
    · obtain ⟨d', hd', hd'id⟩ := hbelow.resolve_left hkey
      cases hd'
      obtain ⟨h', above, anchor, below, hs', hsplit, hanchor, habove⟩ := ih ht.2 hd'id
      cases hs.symm.trans hs'
      refine ⟨h, e :: above, anchor, below, hs, congrArg (List.cons e) hsplit, hanchor,
        fun f hf => ?_⟩
      rcases List.mem_cons.mp hf with rfl | hf
      · exact ⟨hid, hkey⟩
      · exact habove f hf

/-- The frames above one of a head join it up to the innermost. -/
theorem joinFrames_append {f : Frame} {id : HeadId} (hf : f.head = some id)
    (above below : List Frame) :
    ∃ above', Session.joinFrames id (above ++ f :: below) = above' ++ f :: below ∧
      ∃ e rest, above' ++ f :: below = e :: rest ∧ e.head = some id := by
  induction above with
  | nil =>
    refine ⟨[], ?_, f, below, rfl, hf⟩
    rw [List.nil_append, Session.joinFrames, if_pos hf]
  | cons e above ih =>
    by_cases he : e.head = some id
    · refine ⟨e :: above, ?_, e, above ++ f :: below, rfl, he⟩
      rw [List.cons_append, Session.joinFrames, if_pos he]
    · obtain ⟨above', hjoin, _⟩ := ih
      refine ⟨e.join id :: above', ?_, e.join id, above' ++ f :: below, rfl, rfl⟩
      rw [List.cons_append, Session.joinFrames, if_neg he, hjoin]
      rfl

/-- If the innermost frame belongs to the head of another one, so do all that are in between, and
the head is that of neither of these. -/
theorem tied_between (t : Tracked g c s) {above below rest : List Frame} {f e d : Frame}
    {id : HeadId} (hframes : s.frames = above ++ f :: below) (hf : f.head = some id)
    (htop : s.frames = d :: rest) (hd : d.head = some id) {number : Nat}
    (hlt : below.length < number) (he : s.frame? number = some e) : s.Tied e := by
  have htagged := t.tagged
  rw [htop] at htagged
  obtain ⟨h, upper, anchor, lower, hs, hsplit, hakey, hupper⟩ := tagged_down htagged hd
  rw [← htop] at hsplit
  -- The anchor is not above the frame that has the head as well.
  obtain ⟨h', hs', _, anchor', hanchor', _, hakey'⟩ :=
    (tagged_suffix (hframes ▸ t.tagged)).anchor hf
  cases hs.symm.trans hs'
  have hle : lower.length ≤ below.length := by
    refine Nat.le_of_not_lt fun hgt => ?_
    have hmem : anchor ∈ above := by
      rcases List.append_eq_append_iff.mp (hsplit.symm.trans hframes) with
        ⟨more, rfl, hrest⟩ | ⟨more, rfl, hrest⟩
      · cases more with
        | nil =>
          have := congrArg List.length hrest
          simp at this
          omega
        | cons b more =>
          cases hrest
          exact List.mem_append_right _ (List.mem_cons_self ..)
      · have := congrArg List.length hrest
        simp at this
        omega
    have hnodup := t.frames_nodup
    rw [hframes, List.map_append] at hnodup
    exact (List.nodup_append.mp hnodup).2.2 _ (List.mem_map_of_mem hmem)
      _ (List.mem_map_of_mem hanchor') (hakey.trans hakey'.symm)
  rcases frame?_append hsplit he with he | he
  · have := (List.getElem?_eq_some_iff.mp he).1
    simp at this
    omega
  · obtain ⟨hid, hkey⟩ := hupper e he
    exact ⟨id, h, hid, hs, fun hk => hkey hk.symm⟩

/-- A rule is applied again where it is under way: all frames above its own then belong to a head of
another. -/
theorem reenter_tied (t : Tracked g c s) {number : Nat} {f : Frame} (hf : s.frame? number = some f)
    (hpos : ∀ a ∈ c.trail, a.pos ≤ f.pos) {n : Nat} (hn : number < n) {e : Frame}
    (he : (s.reenter number).frame? n = some e) : (s.reenter number).Tied e := by
  have t' := t.reenter hf hpos
  obtain ⟨above, below, hframes, rfl⟩ := frame?_eq_some_iff.mp hf
  have hjoined : ∃ above' f' id d rest, (s.reenter below.length).frames = above' ++ f' :: below ∧
      f'.head = some id ∧ above' ++ f' :: below = d :: rest ∧ d.head = some id := by
    cases hhead : f.head with
    | some id =>
      obtain ⟨h, hs, _⟩ :=
        t.tagged.mem (hframes ▸ List.mem_append_right _ (List.mem_cons_self ..)) hhead
      obtain ⟨above', hjoin, d, rest, htop, hd⟩ := joinFrames_append hhead above below
      refine ⟨above', f, id, d, rest, ?_, hhead, htop, hd⟩
      rw [reenter_of_head hf hhead, frames_involve hs, ← hjoin, ← hframes]
    | none =>
      obtain ⟨above', hjoin, d, rest, htop, hd⟩ :=
        joinFrames_append (f := f.join s.nextHead) rfl above below
      refine ⟨above', f.join s.nextHead, s.nextHead, d, rest, ?_, rfl, htop, hd⟩
      rw [reenter_of_no_head hf hhead, frames_involve (heads_newHead_self ..), ← hjoin,
        frames_newHead hframes]
  obtain ⟨above', f', id, d, rest, hframes', hf', htop, hd⟩ := hjoined
  exact t'.tied_between hframes' hf' (hframes'.trans htop) hd hn he

end Packrat.Tracked
