import Packrat.Proofs.Recognition.Heads

/-! What a session does to its frames.

An application is entered and left, and it begins to grow and stops to grow: each takes a
tracked scene to the one with the application put on top of it or taken away. -/
namespace Packrat.Tracked
variable {g : RuleGraph} {c : Scene} {s s' : Session}

/-- An application begins that is neither under way nor on offer. -/
theorem enter (t : Tracked g c s) {x : RuleId} {pos : Nat} (hready : c.Ready pos)
    (hfree : ¬ c.Reserved c.trail (x, pos)) (hel : ¬ s.isEligible x pos = true) :
    Tracked g (c.push ⟨x, pos, none⟩) (s.enter x pos) := by
  have hanchored : ∀ id k, (s.enter x pos).Anchored (⟨x, pos, none⟩ :: c.trail) id k →
      s.Anchored c.trail id k := by
    rintro id k (⟨f, hf, hid, hk⟩ | ⟨a, ha, hid, hk⟩)
    · rcases List.mem_cons.mp hf with rfl | hf
      · cases hid
      · exact .inl ⟨f, hf, hid, hk⟩
    · rcases List.mem_cons.mp ha with rfl | ha
      · cases hid
      · exact .inr ⟨a, ha, hid, hk⟩
  refine { t with
    sorted := List.pairwise_cons.mpr ⟨hready.1, t.sorted⟩
    distinct := List.nodup_cons.mpr ⟨fun hkey => hfree (.inl hkey), t.distinct⟩
    frames_eq := congrArg (List.cons (x, pos)) t.frames_eq
    tagged := ⟨nofun, t.tagged.congr fun i h hi _ => ⟨h, hi, rfl⟩⟩
    growing_eq := fun p => (t.growing_eq p).trans (growingAt_frame x pos c.trail p).symm
    growth := fun a ha id hid => ?_
    guarded := fun outer houter id h hs hanc hout => ?_
    spared := fun a below hsuffix hframe id h hgrowing hs => ?_
    settled := fun k a hk hmem => ?_
    tied := fun number f hn hf => ?_ }
  · rcases List.mem_cons.mp ha with rfl | ha
    · cases hid
    · exact t.growth a ha id hid
  · rcases List.suffix_cons_iff.mp houter with rfl | houter
    · exact absurd (List.mem_cons_of_mem _ (anchored_mem t.frames_eq (hanchored id _ hanc))) hout
    · exact t.guarded outer houter id h hs (hanchored id _ hanc) hout
  · rcases List.suffix_cons_iff.mp hsuffix with heq | hsuffix
    · cases heq
      intro hx
      rw [← t.growing_eq] at hgrowing
      rw [Session.isEligible, hgrowing, Option.bind_some, show s.heads[id]? = some h from hs] at hel
      exact hel (by simpa using hx)
    · exact t.spared a below hsuffix hframe id h hgrowing hs
  · rcases List.mem_cons.mp hmem with rfl | hmem
    · exact hfree (.inr ⟨a, hk⟩)
    · exact t.settled k a hk hmem
  · have hlt : number < s.frames.reverse.length := by
      rw [List.length_reverse, ← List.length_map (f := Frame.key), t.frames_eq]
      exact hready.2 number hn
    obtain ⟨e, he⟩ : ∃ e, s.frame? number = some e := ⟨_, List.getElem?_eq_getElem hlt⟩
    have hframes : (s.enter x pos).frames = [⟨x, pos, none⟩] ++ s.frames := rfl
    cases (frame?_of_append hframes he).symm.trans hf
    exact (t.tied number f hn he).congr fun i h hi _ => ⟨h, hi, rfl⟩

theorem frames_push {x : RuleId} {pos : Nat} (t : Tracked g (c.push ⟨x, pos, none⟩) s) :
    ∃ f rest, s.frames = f :: rest ∧ f.key = (x, pos) ∧
      rest.map Frame.key = Scene.frameKeys c.trail := by
  have h : s.frames.map Frame.key = (x, pos) :: Scene.frameKeys c.trail := t.frames_eq
  obtain ⟨f, rest, hframes, hkey, hrest⟩ := List.map_eq_cons_iff.mp h
  exact ⟨f, rest, hframes, hkey, hrest⟩

/-- What holds of a longer trail holds of the one that it was begun on, where that is all that the
session shows. -/
theorem pop {a : Activity} (t : Tracked g (c.push a) s)
    (hframes : s'.frames.map Frame.key = Scene.frameKeys c.trail)
    (hsub : ∃ above, s.frames = above ++ s'.frames) (hheads : s'.heads = s.heads)
    (hgrowing : ∀ p, s'.growing[p]? = growingAt c.trail p) (hnext : s'.nextHead = s.nextHead) :
    Tracked g c s' := by
  obtain ⟨above, hsplit⟩ := hsub
  have htagged := t.tagged
  rw [hsplit] at htagged
  have ht : Tagged s s'.frames := tagged_suffix htagged
  refine
    { sorted := (List.pairwise_cons.mp t.sorted).2
      distinct := (List.nodup_cons.mp t.distinct).2
      frames_eq := hframes
      tagged := ht.congr fun i h hi _ => ⟨h, hheads ▸ hi, rfl⟩
      growing_eq := hgrowing
      growth := fun b hb id hid => ?_
      guarded := fun outer houter id h hs hanc hout => ?_
      spared := fun b below hsuffix hframe id h hgrow hs => ?_
      made := fun id h hs => ?_
      nodup := fun id h hs => t.nodup id h (hheads ▸ hs)
      known := fun id k hk => ?_
      settled := fun k b hk hmem => t.settled k b hk (List.mem_cons_of_mem _ hmem)
      tied := fun number f hn hf => ?_ }
  · rw [hheads]
    exact t.growth b (List.mem_cons_of_mem _ hb) id hid
  · refine t.guarded outer (houter.trans (List.suffix_cons _ _)) id h (hheads ▸ hs) ?_ hout
    rcases hanc with ⟨f, hf, hid, hk⟩ | ⟨b, hb, hid, hk⟩
    · exact .inl ⟨f, hsplit ▸ List.mem_append_right _ hf, hid, hk⟩
    · exact .inr ⟨b, List.mem_cons_of_mem _ hb, hid, hk⟩
  · exact t.spared b below (hsuffix.trans (List.suffix_cons _ _)) hframe id h hgrow (hheads ▸ hs)
  · rw [hnext]
    exact t.made id h (hheads ▸ hs)
  · exact (t.known id k hk).congr (Nat.le_of_eq hnext.symm) fun h hs => ⟨h, hheads ▸ hs, rfl⟩
  · exact (t.tied number f hn (frame?_of_append hsplit hf)).congr fun i h hi _ =>
      ⟨h, hheads ▸ hi, rfl⟩

/-- The innermost frame is left. -/
theorem leave {x : RuleId} {pos : Nat} (t : Tracked g (c.push ⟨x, pos, none⟩) s) :
    Tracked g c s.leave := by
  obtain ⟨f, rest, hframes, _, hrest⟩ := t.frames_push
  have hleave : s.leave.frames = rest := by rw [Session.leave, hframes]; rfl
  refine t.pop (hleave ▸ hrest) ⟨[f], ?_⟩ rfl (fun p => ?_) rfl
  · rw [hleave, hframes]
    rfl
  · exact (t.growing_eq p).trans (growingAt_frame x pos c.trail p)

/-- The growth that began last ends, and the one before at its position goes on. -/
theorem stopGrowth {x : RuleId} {pos : Nat} {id : HeadId} {outer : Option HeadId}
    (t : Tracked g (c.push ⟨x, pos, some id⟩) s) (houter : outer = growingAt c.trail pos)
    (anchor : RuleId) : Tracked g c (s.endGrowth id anchor pos outer) := by
  have t' := t.discard id anchor pos
  refine t'.pop t'.frames_eq ⟨[], rfl⟩ rfl (fun p => ?_) rfl
  rw [growing_endGrowth]
  by_cases hp : pos = p
  · rw [if_pos hp, houter, hp]
  · rw [if_neg hp, t.growing_eq p]
    exact (growingAt_growth x pos id c.trail p).trans (if_neg hp)

/-- What the innermost frame belongs to when its application ends. -/
theorem of_top {x : RuleId} {pos : Nat} {id : HeadId} {anchor : Bool}
    (t : Tracked g (c.push ⟨x, pos, none⟩) s) (htop : s.top = some (id, anchor)) :
    ∃ h, s.heads[id]? = some h ∧ h.pos = pos ∧
    (∃ f ∈ s.frames, f.head = some id ∧ f.key = (x, pos)) ∧
      (anchor = true → h.key = (x, pos)) := by
  obtain ⟨f, rest, hframes, hkey, _⟩ := t.frames_push
  rw [top_eq hframes] at htop
  obtain ⟨id', hhead, heq⟩ := Option.map_eq_some_iff.mp htop
  cases heq
  have hf : f ∈ s.frames := hframes ▸ List.mem_cons_self ..
  obtain ⟨h, hs, hpos, _⟩ := t.tagged.mem hf hhead
  refine ⟨h, hs, hpos.trans (congrArg Prod.snd hkey), ⟨f, hf, hhead, hkey⟩, fun ha => ?_⟩
  rw [hs] at ha
  exact (Head.isAnchor_iff.mp ha).trans hkey

/-- The anchor of a head that the innermost frame is involved in is further out. -/
theorem anchor_below {x : RuleId} {pos : Nat} {id : HeadId}
    (t : Tracked g (c.push ⟨x, pos, none⟩) s) (htop : s.top = some (id, false)) :
    s.leave.anchorUnderWay id = true := by
  obtain ⟨f, rest, hframes, _, _⟩ := t.frames_push
  rw [top_eq hframes] at htop
  obtain ⟨id', hhead, heq⟩ := Option.map_eq_some_iff.mp htop
  obtain ⟨rfl, hanchor⟩ := Prod.mk.inj heq
  have htagged := t.tagged
  rw [hframes] at htagged
  obtain ⟨h, hs, _, g, hg, hid, hkey⟩ := htagged.anchor hhead
  have hg' : h.isAnchor g.rule g.pos = true := Head.isAnchor_iff.mpr hkey.symm
  refine anchorUnderWay_iff.mpr ⟨g, ?_, hid, by simpa [Session.leave, hs] using hg'⟩
  rw [Session.leave, hframes]
  rcases List.mem_cons.mp hg with rfl | hg
  · rw [hs, Option.any_some, hg'] at hanchor
    cases hanchor
  · exact hg

/-- The innermost frame, if it is tied, is involved in a head that it does not anchor. -/
theorem top_of_tied {x : RuleId} {pos : Nat} (t : Tracked g (c.push ⟨x, pos, none⟩) s)
    (htied : c.tied (Scene.frameKeys c.trail).length) : ∃ id, s.top = some (id, false) := by
  obtain ⟨f, rest, hframes, _, hrest⟩ := t.frames_push
  have hlength : rest.length = (Scene.frameKeys c.trail).length := by rw [← hrest, List.length_map]
  have hf : s.frame? (Scene.frameKeys c.trail).length = some f :=
    frame?_eq_some_iff.mpr ⟨[], rest, hframes, hlength⟩
  obtain ⟨id, h, hhead, hs, hkey⟩ := t.tied _ f htied hf
  have hanchor : h.isAnchor f.rule f.pos = false := by
    rw [Bool.eq_false_iff, ne_eq, Head.isAnchor_iff]
    exact hkey
  refine ⟨id, ?_⟩
  rw [top_eq hframes, hhead, Option.map_some, hs, Option.any_some, hanchor]

/-- The application of the innermost frame has answered and begins to grow. -/
theorem startGrowth {x : RuleId} {pos : Nat} {id : HeadId} (t : Tracked g (c.push ⟨x, pos, none⟩) s)
    (htop : s.top = some (id, true)) :
    Tracked g ((c.cap id g.size).push ⟨x, pos, some id⟩) (s.leave.startGrowth id pos) := by
  obtain ⟨f, rest, hframes, hkey, hrest⟩ := t.frames_push
  obtain ⟨h, hs, _, ⟨f', hf', hhead, hk'⟩, hanchor⟩ := t.of_top htop
  have hleave : s.leave.frames = rest := by rw [Session.leave, hframes]; rfl
  have hnotin : (x, pos) ∉ Scene.keys c.trail := (List.nodup_cons.mp t.distinct).1
  have tl := t.leave
  -- The growth anchors what the frame anchored, and nothing else does so anew.
  have hanchored : ∀ i k, (s.leave.startGrowth id pos).Anchored (⟨x, pos, some id⟩ :: c.trail) i k →
      s.Anchored (⟨x, pos, none⟩ :: c.trail) i k := by
    rintro i k (⟨e, he, hi, hk⟩ | ⟨a, ha, hi, hk⟩)
    · refine .inl ⟨e, ?_, hi, hk⟩
      rw [hframes, ← hleave]
      exact List.mem_cons_of_mem _ he
    · rcases List.mem_cons.mp ha with rfl | ha
      · cases hi
        exact .inl ⟨f', hf', hhead, hk'.trans hk⟩
      · exact .inr ⟨a, List.mem_cons_of_mem _ ha, hi, hk⟩
  refine
    { sorted := List.pairwise_cons.mpr (List.pairwise_cons.mp t.sorted)
      distinct := t.distinct
      frames_eq := tl.frames_eq
      tagged := tl.tagged.congr fun i h hi _ => ⟨h, hi, rfl⟩
      growing_eq := fun p => ?_
      growth := fun a ha i hi => ?_
      guarded := fun outer houter i h hs hanc hout => ?_
      spared := fun a below hsuffix hframe i h hgrow hs => ?_
      made := t.made
      nodup := t.nodup
      known := fun i k hk => (t.known i k hk).congr (Nat.le_refl _) fun h hs => ⟨h, hs, rfl⟩
      settled := t.settled
      tied := tl.tied }
  · show _ = growingAt (⟨x, pos, some id⟩ :: c.trail) p
    rw [growingAt_growth, ← tl.growing_eq, growing_startGrowth]
  · rcases List.mem_cons.mp ha with rfl | ha
    · cases hi
      refine ⟨h, hs, hanchor rfl, ?_⟩
      show g.onOffer h ≤ if id = id then g.size else c.caps id
      rw [if_pos rfl]
      exact onOffer_le h
    · obtain ⟨h', hs', hk, hcap⟩ := tl.growth a ha i hi
      refine ⟨h', hs', hk, ?_⟩
      show g.onOffer h' ≤ if i = id then g.size else c.caps i
      split
      · exact onOffer_le h'
      · exact hcap
  · rcases List.suffix_cons_iff.mp houter with rfl | houter
    · have hmem := anchored_mem t.frames_eq (hanchored i _ hanc)
      exact absurd hmem hout
    · exact t.guarded outer (houter.trans (List.suffix_cons _ _)) i h hs (hanchored i _ hanc) hout
  · rcases List.suffix_cons_iff.mp hsuffix with heq | hsuffix
    · cases heq
      cases hframe
    · exact t.spared a below (hsuffix.trans (List.suffix_cons _ _)) hframe i h hgrow hs

/-- A head is released that no frame belongs to and that does not grow. -/
theorem release (t : Tracked g c s) {id : HeadId} {k : Key} (hk : s.Knows id k)
    (hnotin : k ∉ Scene.keys c.trail) : Tracked g c (s.release id) := by
  have hother : ∀ f ∈ s.frames, ∀ i, f.head = some i → i ≠ id := by
    rintro f hf i hid rfl
    obtain ⟨h, hs, _, e, he, _, hkey⟩ := t.tagged.mem hf hid
    obtain ⟨a, ha, _, hka⟩ := t.frame_mem he
    exact hnotin (mem_keys.mpr ⟨a, ha, hka.trans (hkey.trans (hk.2 h hs))⟩)
  refine { t with
    tagged := ?tagged
    growth := ?growth
    guarded :=
      fun outer houter i h hs hanc =>
        t.guarded outer houter i h (heads_release_eq_some.mp hs).2 hanc
    spared := fun a below hsuffix hframe i h hgrow hs =>
      t.spared a below hsuffix hframe i h hgrow (heads_release_eq_some.mp hs).2
    made := fun i h hs => t.made i h (heads_release_eq_some.mp hs).2
    nodup := fun i h hs => t.nodup i h (heads_release_eq_some.mp hs).2
    known := fun i k hk => (t.known i k hk).congr (Nat.le_refl _) fun h hs =>
      ⟨h, (heads_release_eq_some.mp hs).2, rfl⟩
    tied := ?tied }
  case tagged =>
    exact t.tagged.congr fun i h hs ⟨f, hf, hid⟩ =>
      ⟨h, heads_release_eq_some.mpr ⟨hother f hf i hid, hs⟩, rfl⟩
  case tied =>
    intro number f hn hf
    have hmem : f ∈ s.frames := List.mem_reverse.mp (List.mem_of_getElem? hf)
    exact (t.tied number f hn hf).congr fun i h hs hid =>
      ⟨h, heads_release_eq_some.mpr ⟨hother f hmem i hid, hs⟩, rfl⟩
  case growth =>
    intro a ha i hi
    obtain ⟨h, hs, hkey, hcap⟩ := t.growth a ha i hi
    refine ⟨h, heads_release_eq_some.mpr ⟨fun he => ?_, hs⟩, hkey, hcap⟩
    subst he
    exact hnotin (mem_keys.mpr ⟨a, ha, hkey.symm.trans (hk.2 h hs)⟩)

/-- The bound for a head does not matter where its anchor is not under way. -/
theorem uncap (t : Tracked g c s) {id : HeadId} {k : Key} {caps : HeadId → Nat} (hk : s.Knows id k)
    (hnotin : k ∉ Scene.keys c.trail) (hcaps : ∀ i, i ≠ id → c.caps i = caps i) :
    Tracked g { c with caps } s := by
  refine { t with growth := fun a ha i hi => ?_ }
  obtain ⟨h, hs, hkey, hcap⟩ := t.growth a ha i hi
  refine ⟨h, hs, hkey, Nat.le_trans hcap (Nat.le_of_eq (hcaps i fun he => ?_))⟩
  subst he
  exact hnotin (mem_keys.mpr ⟨a, ha, hkey.symm.trans (hk.2 h hs)⟩)

end Packrat.Tracked
