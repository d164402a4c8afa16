import Packrat.Proofs.Recognition.Scene
import Packrat.Proofs.Recognition.Operations
import Packrat.Proofs.Rules.Closed

/-! What a session does to its heads while they grow.

To change a head takes a tracked scene to a tracked scene (`Tracked.withHead`) as long as the
head leaves alone what its anchor was applied for. Rules are offered by it, taken from the
offer, remembered and forgotten in that way. -/
namespace Packrat
variable {g : RuleGraph} {c : Scene} {s s' : Session}

theorem Session.Knows.congr {id : HeadId} {k : Key} (hk : s.Knows id k)
    (hn : s.nextHead ≤ s'.nextHead)
    (hh : ∀ h', s'.heads[id]? = some h' → ∃ h, s.heads[id]? = some h ∧ h'.key = h.key) :
    s'.Knows id k := by
  refine ⟨Nat.lt_of_lt_of_le hk.1 hn, fun h' hh' => ?_⟩
  obtain ⟨h, hh, hkey⟩ := hh h' hh'
  rw [hkey]
  exact hk.2 h hh

/-- Frames and heads that belong together do so in a session with the same anchors. -/
theorem Tagged.congr {frames : List Frame} (ht : Tagged s frames)
    (hh : ∀ id h, s.heads[id]? = some h → (∃ f ∈ frames, f.head = some id) →
      ∃ h', s'.heads[id]? = some h' ∧ h'.key = h.key) : Tagged s' frames := by
  induction frames with
  | nil => trivial
  | cons f below ih =>
    refine ⟨fun id hid => ?_, ih ht.2 fun id h hs ⟨f', hf', he⟩ =>
      hh id h hs ⟨f', List.mem_cons_of_mem _ hf', he⟩⟩
    obtain ⟨h, hs, hpos, hanchor⟩ := ht.1 id hid
    obtain ⟨h', hs', hk⟩ := hh id h hs ⟨f, List.mem_cons_self .., hid⟩
    exact ⟨h', hs', (congrArg Prod.snd hk).trans hpos, hanchor.imp_left
      fun hkey => hkey.trans hk.symm⟩

/-- The anchor of a frame's head is the frame or below it. -/
theorem Tagged.anchor {f : Frame} {below : List Frame} (ht : Tagged s (f :: below)) {id : HeadId}
    (hid : f.head = some id) : ∃ h, s.heads[id]? = some h ∧ h.pos = f.pos ∧
      ∃ e ∈ f :: below, e.head = some id ∧ e.key = h.key := by
  induction below generalizing f with
  | nil =>
    obtain ⟨h, hs, hpos, hkey | ⟨e, he, _⟩⟩ := ht.1 id hid
    · exact ⟨h, hs, hpos, f, List.mem_cons_self .., hid, hkey⟩
    · cases he
  | cons e below ih =>
    obtain ⟨h, hs, hpos, hkey | ⟨e', he', hhead⟩⟩ := ht.1 id hid
    · exact ⟨h, hs, hpos, f, List.mem_cons_self .., hid, hkey⟩
    · cases he'
      obtain ⟨h', hs', _, d, hd, hrest⟩ := ih ht.2 hhead
      cases hs.symm.trans hs'
      exact ⟨h, hs, hpos, d, List.mem_cons_of_mem _ hd, hrest⟩

theorem tagged_suffix {above below : List Frame} (h : Tagged s (above ++ below)) :
    Tagged s below := by
  induction above with
  | nil => exact h
  | cons f above ih => exact ih h.2

theorem Tagged.mem {frames : List Frame} (ht : Tagged s frames) {f : Frame} (hf : f ∈ frames)
    {id : HeadId} (hid : f.head = some id) : ∃ h, s.heads[id]? = some h ∧ h.pos = f.pos ∧
      ∃ e ∈ frames, e.head = some id ∧ e.key = h.key := by
  induction frames with
  | nil => cases hf
  | cons e below ih =>
    rcases List.mem_cons.mp hf with rfl | hf
    · exact ht.anchor hid
    · obtain ⟨h, hs, hpos, e, he, hrest⟩ := ih ht.2 hf
      exact ⟨h, hs, hpos, e, List.mem_cons_of_mem _ he, hrest⟩

/-- Frames that belong to another's head do so in a session with the same anchors. -/
theorem Session.Tied.congr {f : Frame} (hf : s.Tied f)
    (hh : ∀ id h, s.heads[id]? = some h → f.head = some id → ∃ h', s'.heads[id]? = some h' ∧
      h'.key = h.key) :
    s'.Tied f := by
  obtain ⟨id, h, hhead, hs, hkey⟩ := hf
  obtain ⟨h', hs', hk⟩ := hh id h hs hhead
  exact ⟨id, h', hhead, hs', hk ▸ hkey⟩

theorem Head.mem_rules {h : Head} {x : RuleId} :
    x ∈ h.rules ↔ x ∈ h.involved ∨ x ∈ h.eligible ∨ x ∈ h.written := by
  simp only [Head.rules, List.mem_append]

theorem onOffer_mono {h h' : Head} (hsub : ∀ x ∈ h'.eligible, x ∈ h.eligible) :
    g.onOffer h' ≤ g.onOffer h :=
  List.countP_mono_left fun x _ hx => by
    rw [List.contains_iff_mem] at hx ⊢
    exact hsub x hx

/-- With a head replaced by one of the same anchor, each number has a head of the anchor that it
had. -/
theorem exists_heads_insert {heads : Std.HashMap HeadId Head} {id i : HeadId} {h h' h₁ : Head}
    (hs : heads[id]? = some h) (hkey : h'.key = h.key) (hi : heads[i]? = some h₁) :
    ∃ h₂, (heads.insert id h')[i]? = some h₂ ∧ h₂.key = h₁.key := by
  by_cases hid : i = id
  · subst hid
    cases hs.symm.trans hi
    exact ⟨h', Std.HashMap.getElem?_insert_self, hkey⟩
  · exact ⟨h₁, heads_insert_eq_some.mpr (.inr ⟨hid, hi⟩), rfl⟩

namespace Tracked

/-- What is tracked is in the frames and heads; the rest of the session does not matter. -/
theorem congr (t : Tracked g c s) (hframes : s'.frames = s.frames) (hheads : s'.heads = s.heads)
    (hgrowing : s'.growing = s.growing) (hnext : s'.nextHead = s.nextHead) : Tracked g c s' := by
  obtain ⟨memo, frames, heads, next, growing, steps, log⟩ := s
  obtain ⟨memo', frames', heads', next', growing', steps', log'⟩ := s'
  cases hframes
  cases hheads
  cases hgrowing
  cases hnext
  refine ⟨t.sorted, t.distinct, t.frames_eq, t.tagged.congr fun id h hs _ => ⟨h, hs, rfl⟩,
    t.growing_eq, t.growth, t.guarded, t.spared, t.made, t.nodup, t.known, t.settled,
    fun number f hn hf => (t.tied number f hn hf).congr fun id h hs _ => ⟨h, hs, rfl⟩⟩

theorem mono (t : Tracked g c s) {caps : HeadId → Nat} {known : HeadId → Key → Prop}
    (hcaps : ∀ id, c.caps id ≤ caps id) (hknown : ∀ id k, known id k → c.known id k) :
    Tracked g { c with caps, known } s := by
  refine
    { t with
      growth := fun a ha id hid => ?_
      known := fun id k h => t.known id k (hknown id k h) }
  obtain ⟨h, hs, hkey, hcap⟩ := t.growth a ha id hid
  exact ⟨h, hs, hkey, Nat.le_trans hcap (hcaps id)⟩

/-- One more head to be kept in mind. -/
theorem know (t : Tracked g c s) {id : HeadId} {k : Key} (hk : s.Knows id k) :
    Tracked g (c.know id k) s := by
  refine { t with known := fun i k' h => ?_ }
  rcases h with h | ⟨rfl, rfl⟩
  · exact t.known i k' h
  · exact hk

/-- A head that is there is known by its key. -/
theorem knows (t : Tracked g c s) {id : HeadId} {h : Head} (hs : s.heads[id]? = some h) :
    s.Knows id h.key := by
  refine ⟨t.made id h hs, fun h' hs' => ?_⟩
  cases hs.symm.trans hs'
  rfl

/-! ### Heads -/

/-- A head may change what it deals with, as long as it leaves alone what was under way before its
anchor and offers no rule that was not on offer. -/
theorem withHead (t : Tracked g c s) {id : HeadId} {h h' : Head} {caps : HeadId → Nat}
    (hs : s.heads[id]? = some h) (hkey : h'.key = h.key) (hinvolved : h'.involved.Nodup)
    (heligible : h'.eligible.Nodup) (hcap : g.onOffer h ≤ c.caps id → g.onOffer h' ≤ caps id)
    (hcaps : ∀ i, i ≠ id → c.caps i ≤ caps i)
    (hguarded : ∀ outer, outer <:+ c.trail → s.Anchored c.trail id h.key →
      h.key ∉ Scene.keys outer → ∀ x ∈ h'.rules, x ∈ h.rules ∨ ¬ c.Reserved outer (x, h.pos))
    (hspared : ∀ a below, a :: below <:+ c.trail → a.grows = none →
      growingAt below a.pos = some id → a.rule ∈ h'.eligible → a.rule ∈ h.eligible) :
    Tracked g { c with caps } { s with heads := s.heads.insert id h' } := by
  have hanchors : ∀ (i : HeadId) (h₁ : Head), s.heads[i]? = some h₁ →
      ∃ h₂ : Head, (s.heads.insert id h')[i]? = some h₂ ∧ h₂.key = h₁.key :=
    fun _ _ => exists_heads_insert hs hkey
  have hpos : h'.pos = h.pos := congrArg Prod.snd hkey
  refine { t with
    tagged := t.tagged.congr fun i h₁ hi _ => hanchors i h₁ hi
    growth := ?growth
    guarded := ?guarded
    spared := ?spared
    made := ?made
    nodup := ?nodup
    known := ?known
    tied := fun number f hn hf => (t.tied number f hn hf).congr fun i h₁ hi _ => hanchors i h₁ hi }
  case growth =>
    intro a ha i hi
    obtain ⟨h₁, h₁s, hk, hle⟩ := t.growth a ha i hi
    by_cases hid : i = id
    · subst hid
      cases hs.symm.trans h₁s
      exact ⟨h', Std.HashMap.getElem?_insert_self, hkey.trans hk, hcap hle⟩
    · exact ⟨h₁, heads_insert_eq_some.mpr (.inr ⟨hid, h₁s⟩), hk, Nat.le_trans hle (hcaps i hid)⟩
  case guarded =>
    intro outer houter i h₁ hi hanchored hout x hx
    rcases heads_insert_eq_some.mp hi with ⟨rfl, rfl⟩ | ⟨_, hi⟩
    · rw [hkey] at hanchored hout
      rw [hpos]
      rcases hguarded outer houter hanchored hout x hx with hx | hx
      · exact t.guarded outer houter i h hs hanchored hout x hx
      · exact hx
    · exact t.guarded outer houter i h₁ hi hanchored hout x hx
  case spared =>
    intro a below hsuffix hframe i h₁ hgrowing hi hmem
    rcases heads_insert_eq_some.mp hi with ⟨rfl, rfl⟩ | ⟨_, hi⟩
    · exact t.spared a below hsuffix hframe i h hgrowing hs
        (hspared a below hsuffix hframe hgrowing hmem)
    · exact t.spared a below hsuffix hframe i h₁ hgrowing hi hmem
  case made =>
    intro i h₁ hi
    rcases heads_insert_eq_some.mp hi with ⟨rfl, rfl⟩ | ⟨_, hi⟩
    · exact t.made i h hs
    · exact t.made i h₁ hi
  case nodup =>
    intro i h₁ hi
    rcases heads_insert_eq_some.mp hi with ⟨rfl, rfl⟩ | ⟨_, hi⟩
    · exact ⟨hinvolved, heligible⟩
    · exact t.nodup i h₁ hi
  case known =>
    intro i k hk
    refine (t.known i k hk).congr (Nat.le_refl _) fun h₁ hi => ?_
    rcases heads_insert_eq_some.mp hi with ⟨rfl, rfl⟩ | ⟨_, hi⟩
    · exact ⟨h, hs, hkey⟩
    · exact ⟨h₁, hi, rfl⟩

/-- A rule is remembered, which is noted on the head that grows at the position. -/
theorem remember (t : Tracked g c s) {x : RuleId} {pos : Nat} (hclear : Clear c (x, pos))
    (e : Entry) : Tracked g c (s.remember x pos e) := by
  have t' : Tracked g c (s.setEntry x pos e) := t.congr rfl rfl rfl rfl
  cases hgrowing : s.growing[pos]? with
  | none =>
    rw [remember_of_not_growing hgrowing]
    exact t'
  | some id =>
    obtain ⟨h, hs, hpos, _⟩ := t.growing_head hgrowing
    rw [remember_of_growing hgrowing, modifyHead_eq (s := s.setEntry x pos e) hs]
    refine t'.withHead hs rfl (t.nodup id h hs).1 (t.nodup id h hs).2 (fun hle => hle)
      (fun _ _ => Nat.le_refl _) ?_ fun _ _ _ _ _ hmem => hmem
    intro outer houter _ hout y hy
    have hcase : y ∈ h.rules ∨ y = x := by
      simp only [Head.mem_rules, List.mem_cons] at hy ⊢
      grind
    rcases hcase with hy | rfl
    · exact .inl hy
    · rw [t.growing_eq] at hgrowing
      obtain ⟨a, ha, _, hgrows⟩ := growingAt_eq_some hgrowing
      obtain ⟨h', hs', hkey, _⟩ := t.growth a ha id hgrows
      cases hs.symm.trans hs'
      rw [hpos]
      exact .inr (hclear outer houter a ha id hgrows hgrowing (hkey ▸ hout))

/-- What is on offer at a position, is on offer of the head that grows there. -/
theorem eligible_head {x : RuleId} {pos : Nat} (h : s.isEligible x pos = true) :
    ∃ id hd, s.growing[pos]? = some id ∧ s.heads[id]? = some hd ∧ x ∈ hd.eligible := by
  rw [Session.isEligible] at h
  cases hg : s.growing[pos]? with
  | none => simp [hg] at h
  | some id =>
    cases hs : s.heads[id]? with
    | none => simp [hg, hs] at h
    | some hd => exact ⟨id, hd, rfl, hs, by simpa [hg, hs] using h⟩

theorem clear_of_eligible (t : Tracked g c s) {x : RuleId} {pos : Nat}
    (h : s.isEligible x pos = true) : Clear c (x, pos) := by
  obtain ⟨id, hd, hgrowing, hs, hx⟩ := eligible_head h
  obtain ⟨hd', hs', hpos, _, hanchored, _⟩ := t.growing_head hgrowing
  cases hs.symm.trans hs'
  intro outer houter a ha i hgrows hat hout
  rw [← t.growing_eq, show s.growing[pos]? = some id from hgrowing] at hat
  cases hat
  obtain ⟨hd', hs', hkey, _⟩ := t.growth a ha id hgrows
  cases hs.symm.trans hs'
  rw [← hpos]
  exact t.guarded outer houter id hd hs hanchored (hkey ▸ hout) x
    (Head.mem_rules.mpr (.inr (.inl hx)))

/-- What is on offer was not answered for good. -/
theorem eligible_not_settled (t : Tracked g c s) {x : RuleId} {pos : Nat}
    (h : s.isEligible x pos = true) (a : Answer) : ¬ c.settled (x, pos) a := by
  obtain ⟨id, hd, hgrowing, hs, hx⟩ := eligible_head h
  obtain ⟨hd', hs', hpos, _, hanchored, _⟩ := t.growing_head hgrowing
  cases hs.symm.trans hs'
  have hfree := t.guarded [] List.nil_suffix id hd hs hanchored List.not_mem_nil x
    (Head.mem_rules.mpr (.inr (.inl hx)))
  rw [hpos] at hfree
  exact fun ha => hfree (.inr ⟨a, ha⟩)

/-- What is on offer has no frame under way. -/
theorem eligible_no_frame (t : Tracked g c s) {x : RuleId} {pos : Nat}
    (h : s.isEligible x pos = true) : ∀ a ∈ c.trail, a.grows = none → a.key ≠ (x, pos) := by
  intro a ha hframe hkey
  obtain ⟨id, hd, hgrowing, hs, hx⟩ := eligible_head h
  rw [t.growing_eq] at hgrowing
  obtain ⟨above, below, hsplit⟩ := List.append_of_mem ha
  have hsuffix : a :: below <:+ c.trail := ⟨above, hsplit.symm⟩
  obtain ⟨rfl, rfl⟩ : a.rule = x ∧ a.pos = pos := by simpa [Activity.key] using hkey
  -- Either the growth began before the frame, or the frame was under way before the growth.
  by_cases hbelow : growingAt below a.pos = some id
  · exact t.spared a below hsuffix hframe id hd hbelow hs hx
  · have habove : growingAt above a.pos = some id := by
      rw [hsplit, growingAt_append] at hgrowing
      rcases Option.or_eq_some_iff.mp hgrowing with habove | ⟨_, hrest⟩
      · exact habove
      · rw [growingAt, if_neg (by simp [hframe])] at hrest
        exact absurd hrest hbelow
    obtain ⟨b, hb, _, hgrows⟩ := growingAt_eq_some habove
    have hout : b.key ∉ Scene.keys (a :: below) := by
      intro hb'
      have hdistinct := t.distinct
      rw [hsplit, Scene.keys, List.map_append] at hdistinct
      exact (List.nodup_append.mp hdistinct).2.2 _ (List.mem_map_of_mem hb) _ hb' rfl
    refine t.clear_of_eligible h (a :: below) hsuffix b ?_ id hgrows hgrowing hout
      (.inl (mem_keys.mpr ⟨a, List.mem_cons_self .., rfl⟩))
    rw [hsplit]
    exact List.mem_append_left _ hb

theorem offered (t : Tracked g c s) {x : RuleId} {pos : Nat} (h : s.isEligible x pos = true) :
    Offered c (x, pos) :=
  ⟨t.clear_of_eligible h, t.eligible_no_frame h, t.eligible_not_settled h⟩

/-- A rule that is evaluated anew is on offer no more. -/
theorem spend (t : Tracked g c s) {x : RuleId} {pos : Nat} {id : HeadId}
    (hel : s.isEligible x pos = true) (hgrowing : growingAt c.trail pos = some id) :
    Tracked g (c.spend g id x) (s.spend x pos) := by
  obtain ⟨id', h, hgrowing', hs, hmem⟩ := eligible_head hel
  rw [t.growing_eq, hgrowing] at hgrowing'
  cases hgrowing'
  rw [Session.spend, t.growing_eq, hgrowing]
  dsimp only
  rw [modifyHead_eq hs]
  have hnodup := (t.nodup id h hs).2
  have hsub : ∀ y, y ∈ h.eligible.erase x → y ∈ h.eligible := fun y hy => List.mem_of_mem_erase hy
  refine t.withHead hs rfl (t.nodup id h hs).1 (hnodup.erase x) ?_ ?_ ?_ fun _ _ _ _ _ hy =>
    hsub _ hy
  · intro hcap
    rw [if_pos rfl]
    by_cases hx : g.contains x = true
    · rw [if_pos hx]
      have hlt : g.onOffer { h with eligible := h.eligible.erase x } < g.onOffer h := by
        refine countP_lt (fun y _ hy => ?_) ?_ (List.contains_iff_mem.mpr hmem) ?_
        · rw [List.contains_iff_mem] at hy ⊢
          exact hsub y hy
        · exact RuleGraph.mem_ids hx
        · rw [List.contains_iff_mem]
          exact fun hx => (hnodup.mem_erase_iff.mp hx).1 rfl
      omega
    · rw [if_neg hx]
      exact Nat.le_trans (onOffer_mono hsub) hcap
  · exact fun i hi => Nat.le_of_eq (if_neg hi).symm
  · intro outer _ _ _ y hy
    refine .inl (Head.mem_rules.mpr ?_)
    rcases Head.mem_rules.mp hy with hy | hy | hy
    · exact .inl hy
    · exact .inr (.inl (hsub y hy))
    · exact .inr (.inr hy)

theorem onOffer_le (h : Head) : g.onOffer h ≤ g.size := by
  have := List.countP_le_length (p := (h.eligible.contains ·)) (l := g.ids)
  simpa [RuleGraph.onOffer, RuleGraph.ids] using this

/-- A round is forgotten. -/
theorem discard (t : Tracked g c s) (id : HeadId) (anchor : RuleId) (pos : Nat) :
    Tracked g c (s.discard id anchor pos) := by
  have t' : Tracked g c (s.modifyHead id fun h => { h with written := [] }) := by
    cases hs : s.heads[id]? with
    | none =>
      rw [modifyHead_of_none hs]
      exact t
    | some h =>
      rw [modifyHead_eq hs]
      refine t.withHead hs rfl (t.nodup id h hs).1 (t.nodup id h hs).2 (fun hle => hle)
        (fun _ _ => Nat.le_refl _) ?_ fun _ _ _ _ _ hmem => hmem
      intro outer _ _ _ x hx
      refine .inl (Head.mem_rules.mpr ?_)
      rcases Head.mem_rules.mp hx with hx | hx | hx
      · exact .inl hx
      · exact .inr (.inl hx)
      · cases hx
  obtain ⟨hframes, hheads, hgrowing, hnext⟩ := foldl_dropEntry
    (s := s.modifyHead id fun h => { h with written := [] })
    ((((s.heads[id]?).map (·.written)).getD []).filter (· ≠ anchor)) pos
  exact t'.congr hframes hheads hgrowing hnext

/-- At the start of a round of the innermost growth all that its head involves is on offer. -/
theorem startRound {a : Activity} {id : HeadId} (t : Tracked g (c.push a) s)
    (ha : a.grows = some id) (hcap : g.size ≤ c.caps id) (anchor : RuleId) (pos : Nat) :
    Tracked g (c.push a) (s.startRound id anchor pos) := by
  have t' := t.discard id anchor pos
  obtain ⟨h, hs, hkey, _⟩ := t'.growth a (List.mem_cons_self ..) id ha
  rw [Session.startRound, modifyHead_eq hs]
  refine t'.withHead hs rfl (t'.nodup id h hs).1 (t'.nodup id h hs).1
    (fun _ => Nat.le_trans (onOffer_le _) hcap) (fun _ _ => Nat.le_refl _) ?_ ?_
  · intro outer _ _ _ x hx
    refine .inl (Head.mem_rules.mpr ?_)
    rcases Head.mem_rules.mp hx with hx | hx | hx
    · exact .inl hx
    · exact .inl hx
    · exact .inr (.inr hx)
  · -- No frame is under way that began while the head grew.
    intro b below hsuffix hframe hgrowing _
    rcases List.suffix_cons_iff.mp hsuffix with heq | hsuffix
    · cases heq
      rw [ha] at hframe
      cases hframe
    · obtain ⟨d, hd, _, hgrows⟩ := growingAt_eq_some hgrowing
      have hmem : d ∈ c.trail := hsuffix.subset (List.mem_cons_of_mem _ hd)
      obtain ⟨h', hs', hkey', _⟩ := t'.growth d (List.mem_cons_of_mem _ hmem) id hgrows
      cases hs.symm.trans hs'
      have hdistinct := List.nodup_cons.mp t'.distinct
      exact absurd (mem_keys.mpr ⟨d, hmem, hkey'.symm.trans hkey⟩) hdistinct.1

end Tracked

end Packrat
