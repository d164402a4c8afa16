import Packrat.Proofs.Recognition.Memory
import Packrat.Proofs.Recognition.Frames
import Packrat.Proofs.Recognition.Involving

/-! What each operation of a session does to a disciplined one. -/
namespace Packrat
variable {r : Recognizer} {c : Scene} {s : Session} {x : RuleId} {pos : Nat} {id : HeadId}

theorem knows_modifyHead {f : Head → Head} (hf : ∀ h, (f h).key = h.key) {i : HeadId} {k : Key}
    (hk : s.Knows i k) : (s.modifyHead id f).Knows i k := by
  refine hk.congr (Nat.le_of_eq (nextHead_modifyHead f).symm) fun h' hh' => ?_
  have hview : ((s.modifyHead id f).heads[i]?).map Head.key = (s.heads[i]?).map Head.key :=
    heads_modifyHead_map Head.key hf i
  rw [hh'] at hview
  obtain ⟨h, hs, hkey⟩ := Option.map_eq_some_iff.mp hview.symm
  exact ⟨h, hs, hkey.symm⟩

theorem knows_remember {e : Entry} {i : HeadId} {k : Key} (hk : s.Knows i k) :
    (s.remember x pos e).Knows i k := by
  rw [Session.remember]
  split
  · exact knows_modifyHead (by exact fun _ => rfl) hk
  · exact hk

theorem knows_discard {anchor : RuleId} {i : HeadId} {k : Key} (hk : s.Knows i k) :
    (s.discard id anchor pos).Knows i k := by
  have hk' : (s.modifyHead id fun h => { h with written := [] }).Knows i k :=
    knows_modifyHead (by exact fun _ => rfl) hk
  exact ⟨(nextHead_discard ..).symm ▸ hk.1, fun h hs => hk'.2 h ((heads_discard ..) ▸ hs)⟩

namespace Disciplined

/-- Nothing is under way in a new session. -/
theorem start (r : Recognizer) : Disciplined r {} {} := by
  have hheads : ∀ (id : HeadId) (h : Head), ({} : Session).heads[id]? ≠ some h := by
    intro id h hs
    rw [show ({} : Session).heads[id]? = none from Std.HashMap.getElem?_empty] at hs
    cases hs
  exact {
    tracked := {
      sorted := .nil
      distinct := .nil
      frames_eq := rfl
      tagged := trivial
      growing_eq := fun _ => Std.HashMap.getElem?_empty
      growth := nofun
      guarded := fun _ _ id h hs => absurd hs (hheads id h)
      spared := fun _ _ _ _ id h _ hs => absurd hs (hheads id h)
      made := fun id h hs => absurd hs (hheads id h)
      nodup := fun id h hs => absurd hs (hheads id h)
      known := nofun
      settled := nofun
      tied := nofun }
    remembered := {
      inProgress := fun k _ => ⟨fun h => absurd h (memo_start k _), nofun⟩
      grown := nofun
      sound := fun k e he => absurd he (memo_start k e)
      settled := nofun } }

theorem record (d : Disciplined r c s) (e : Event) : Disciplined r c (s.record e) :=
  ⟨d.tracked.congr rfl rfl rfl rfl, d.remembered.congr rfl fun _ _ h => h⟩

theorem step (d : Disciplined r c s) : Disciplined r c { s with steps := s.steps + 1 } :=
  ⟨d.tracked.congr rfl rfl rfl rfl, d.remembered.congr rfl fun _ _ h => h⟩

theorem mono (d : Disciplined r c s) {caps : HeadId → Nat} {known : HeadId → Key → Prop}
    (hcaps : ∀ id, c.caps id ≤ caps id) (hknown : ∀ id k, known id k → c.known id k) :
    Disciplined r { c with caps, known } s :=
  ⟨d.tracked.mono hcaps hknown, d.remembered.rescope rfl rfl⟩

/-- What is under way has an entry in progress or a final one, and what was answered for good a
final one. -/
theorem not_reserved (d : Disciplined r c s)
    (hprogress : ∀ number, s.remembered? x pos ≠ some (.inProgress number))
    (hfinal : ∀ a, s.remembered? x pos ≠ some (.final a)) : ¬ c.Reserved c.trail (x, pos) := by
  rintro (hk | ⟨ans, hans⟩)
  · obtain ⟨a, ha, hkey⟩ := mem_keys.mp hk
    cases hg : a.grows with
    | none =>
      have hframe := List.mem_reverse.mpr (mem_frameKeys.mpr ⟨a, ha, hg, hkey⟩)
      obtain ⟨number, hnumber⟩ := List.mem_iff_getElem?.mp hframe
      exact hprogress number ((d.remembered.inProgress (x, pos) number).mpr hnumber)
    | some i =>
      obtain ⟨ans, hans⟩ := d.remembered.grown a ha (by simp [hg])
      rw [hkey] at hans
      exact hfinal ans hans
  · exact hfinal ans (d.remembered.settled _ _ hans)

theorem unknown_free (d : Disciplined r c s) (hentry : s.remembered? x pos = none) :
    ¬ c.Reserved c.trail (x, pos) :=
  d.not_reserved (fun _ h => nomatch hentry.symm.trans h) fun _ h => nomatch hentry.symm.trans h

theorem involved_free (d : Disciplined r c s) {a : Answer}
    (hentry : s.remembered? x pos = some (.involved a id)) : ¬ c.Reserved c.trail (x, pos) :=
  d.not_reserved (fun _ h => nomatch hentry.symm.trans h) fun _ h => nomatch hentry.symm.trans h

theorem enter (d : Disciplined r c s) (hready : c.Ready pos)
    (hfree : ¬ c.Reserved c.trail (x, pos)) (hel : ¬ s.isEligible x pos = true) :
    Disciplined r (c.push ⟨x, pos, none⟩) (s.enter x pos) := by
  have hlength : s.frames.length = (Scene.frameKeys c.trail).length := by
    rw [← d.tracked.frames_eq, List.length_map]
  exact ⟨d.tracked.enter hready hfree hel, d.remembered.enter hfree hlength⟩

theorem dropEntry (d : Disciplined r c s) (hfree : ¬ c.Reserved c.trail (x, pos)) :
    Disciplined r c (s.dropEntry x pos) :=
  ⟨d.tracked.congr rfl rfl rfl rfl, d.remembered.dropEntry hfree⟩

/-- What is under way was not answered for good. -/
theorem not_settled {a : Activity} (d : Disciplined r (c.push a) s) (ans : Answer) :
    ¬ c.settled a.key ans :=
  fun h => d.tracked.settled _ _ h (List.mem_cons_self ..)

/-- The innermost application is under way once. -/
theorem head_free {a : Activity} (d : Disciplined r (c.push a) s) : ¬ c.Reserved c.trail a.key := by
  rintro (hk | ⟨ans, hans⟩)
  · exact (List.nodup_cons.mp d.tracked.distinct).1 hk
  · exact d.not_settled ans hans

section Leaving
variable (d : Disciplined r (c.push ⟨x, pos, none⟩) s)
include d

/-- The innermost application ends without an answer. -/
theorem fail : Disciplined r c (s.leave.dropEntry x pos) := by
  refine ⟨d.tracked.leave.congr rfl rfl rfl rfl,
    d.remembered.popFrame d.head_free (fun _ _ h => h) (fun k hk => ?_) fun e he => ?_⟩
  · exact dropEntry_other hk
  · exact absurd (Std.HashMap.getElem?_erase_self.symm.trans he) nofun

/-- The innermost application ends with an answer. -/
theorem finish {e : Entry} (hsound : e.Sound r s (x, pos)) (he : e.Answered) :
    Disciplined r c (s.leave.remember x pos e) := by
  have hclear : Clear c (x, pos) := clear_of_free d.head_free
  have hknows : ∀ i k, s.Knows i k → (s.leave.remember x pos e).Knows i k :=
    fun _ _ hk => knows_remember (s := s.leave) hk
  refine ⟨d.tracked.leave.remember hclear e,
    d.remembered.popFrame d.head_free hknows (fun k hk => ?_) fun e' he' => ?_⟩
  · exact remember_other hk e
  · cases (remember_self e).symm.trans he'
    exact ⟨he, hsound.mono hknows⟩

/-- The head that the innermost application anchors may be kept in mind. -/
theorem know_anchor (htop : s.top = some (id, true)) :
    Disciplined r ((c.know id (x, pos)).push ⟨x, pos, none⟩) s := by
  obtain ⟨h, hs, _, _, hanchor⟩ := d.tracked.of_top htop
  have hknows : s.Knows id (x, pos) := hanchor rfl ▸ d.tracked.knows hs
  exact ⟨d.tracked.know hknows, d.remembered.rescope rfl rfl⟩

/-- The innermost application, the anchor of a head, has answered and begins to grow. -/
theorem startGrowth (htop : s.top = some (id, true)) {a : Answer} (ha : r.Answers x pos a) :
    Disciplined r ((c.cap id r.graph.size).push ⟨x, pos, some id⟩)
      ((s.leave.remember x pos (.final a)).startGrowth id pos) := by
  have hclear : Clear (c.push ⟨x, pos, none⟩) (x, pos) := by
    intro outer houter b hb _ _ _ hout
    rcases List.suffix_cons_iff.mp houter with rfl | houter
    · exact absurd (mem_keys.mpr ⟨b, hb, rfl⟩) hout
    · exact fun hk => d.head_free (hk.suffix houter)
  have ht := d.tracked.remember hclear (.final a)
  have htracked := ht.startGrowth ((top_remember _).trans htop)
  rw [← leave_remember] at htracked
  refine ⟨htracked, ?_⟩
  have hfinish := d.finish (e := .final a) ha trivial
  have hgrowth : Remembered r (c.push ⟨x, pos, some id⟩) (s.leave.remember x pos (.final a)) := by
    exact hfinish.remembered.pushGrowth ⟨a, remember_self _⟩
  exact (hgrowth.rescope (by rfl) (by rfl)).congr rfl fun _ _ h => h

end Leaving

/-! ### Growth -/

section Growing
variable (d : Disciplined r (c.push ⟨x, pos, some id⟩) s)
include d

/-- What a growing head deals with is not under way, except for the anchor, nor answered for
good. -/
theorem rule_free {h : Head} (hs : s.heads[id]? = some h) {y : RuleId} (hy : y ∈ h.rules) :
    ¬ c.Reserved c.trail (y, pos) := by
  obtain ⟨h', hs', hkey, _⟩ := d.tracked.growth _ (List.mem_cons_self ..) id rfl
  cases hs.symm.trans hs'
  rw [← show h.pos = pos from congrArg Prod.snd hkey]
  refine d.tracked.guarded c.trail (List.suffix_cons _ _) id h hs ?_ ?_ y hy
  · exact .inr ⟨_, List.mem_cons_self .., rfl, hkey.symm⟩
  · rw [hkey]
    exact (List.nodup_cons.mp d.tracked.distinct).1

theorem discard : Disciplined r (c.push ⟨x, pos, some id⟩) (s.discard id x pos) := by
  refine ⟨d.tracked.discard id x pos, ?_⟩
  obtain ⟨h, hs, hkey, _⟩ := d.tracked.growth _ (List.mem_cons_self ..) id rfl
  have hwritten : ∀ y ∈ (((s.heads[id]?).map (·.written)).getD []).filter (· ≠ x),
      ¬ (c.push ⟨x, pos, some id⟩).Reserved (c.push ⟨x, pos, some id⟩).trail (y, pos) := by
    intro y hy hk
    rw [hs] at hy
    obtain ⟨hmem, hne⟩ := List.mem_filter.mp hy
    have hfree := d.rule_free hs (Head.mem_rules.mpr (.inr (.inr hmem)))
    rcases hk with hk | hk
    · rcases List.mem_cons.mp hk with heq | hk
      · exact absurd (congrArg Prod.fst heq) (of_decide_eq_true hne)
      · exact hfree (.inl hk)
    · exact hfree (.inr hk)
  rw [Session.discard]
  generalize (((s.heads[id]?).map (·.written)).getD []).filter (· ≠ x) = l at hwritten
  have hm : Remembered r (c.push ⟨x, pos, some id⟩) (s.modifyHead id
      fun h => { h with written := [] }) :=
    d.remembered.congr (memo_modifyHead _) fun _ _ hk => knows_modifyHead (by exact fun _ => rfl) hk
  revert hm
  generalize s.modifyHead id (fun h => { h with written := [] }) = s'
  intro hm
  clear d hs
  induction l generalizing s' with
  | nil => exact hm
  | cons y rest ih =>
    exact ih (fun z hz => hwritten z (List.mem_cons_of_mem _ hz)) _
      (hm.dropEntry (hwritten y (List.mem_cons_self ..)))

theorem startRound (hcap : r.graph.size ≤ c.caps id) :
    Disciplined r (c.push ⟨x, pos, some id⟩) (s.startRound id x pos) :=
  ⟨d.tracked.startRound rfl hcap x pos,
    d.discard.remembered.congr (memo_modifyHead _) fun _ _ hk =>
      knows_modifyHead (by exact fun _ => rfl) hk⟩

/-- A round has brought a longer answer. -/
theorem improve {a : Answer} (ha : r.Answers x pos a) :
    Disciplined r (c.push ⟨x, pos, some id⟩) (s.setEntry x pos (.final a)) := by
  refine ⟨d.tracked.congr rfl rfl rfl rfl, d.remembered.setEntry ha trivial d.not_settled
    (fun b hb hg hk => ?_) fun _ _ _ _ => ⟨a, rfl⟩⟩
  rcases List.mem_cons.mp hb with rfl | hb
  · cases hg
  · exact d.head_free (.inl (mem_keys.mpr ⟨b, hb, hk⟩))

/-- What a round remembered is fit to be remembered again once the growth has ended. -/
theorem writtenEntries {y : RuleId} {e : Entry} (hy : (y, e) ∈ s.writtenEntries id pos) :
    ¬ c.Reserved c.trail (y, pos) ∧ e.Answered ∧ e.Sound r s (y, pos) := by
  obtain ⟨h, hs, hwritten, hentry⟩ := mem_writtenEntries hy
  have hfree := d.rule_free hs (Head.mem_rules.mpr (.inr (.inr hwritten)))
  refine ⟨hfree, ?_, d.remembered.sound (y, pos) e hentry⟩
  cases e with
  | inProgress number =>
    obtain ⟨a, ha, hg, hk⟩ := d.remembered.underWay hentry
    rcases List.mem_cons.mp ha with rfl | ha
    · cases hg
    · exact absurd (.inl (mem_keys.mpr ⟨a, ha, hk⟩)) hfree
  | involved a i => trivial
  | final a => trivial

theorem stopGrowth {outer : Option HeadId} (houter : outer = growingAt c.trail pos) :
    Disciplined r c (s.endGrowth id x pos outer) :=
  ⟨d.tracked.stopGrowth houter x, d.discard.remembered.popGrowth.congr rfl fun _ _ hk => hk⟩

end Growing

/-- An answer is remembered of what is not under way, or of a growth. -/
theorem remember (d : Disciplined r c s) {e : Entry} (hclear : Clear c (x, pos))
    (hframe : ∀ a ∈ c.trail, a.grows = none → a.key ≠ (x, pos))
    (hgrown : ∀ a ∈ c.trail, a.grows.isSome → a.key = (x, pos) → ∃ ans, e = .final ans)
    (hsettled : ∀ a, ¬ c.settled (x, pos) a) (he : e.Answered) (hsound : e.Sound r s (x, pos)) :
    Disciplined r c (s.remember x pos e) :=
  ⟨d.tracked.remember hclear e, (d.remembered.setEntry hsound he hsettled hframe hgrown).congr
    (memo_remember e) fun _ _ hk => knows_remember hk⟩

theorem remember_of_free (d : Disciplined r c s) {e : Entry} (hfree : ¬ c.Reserved c.trail (x, pos))
    (he : e.Answered) (hsound : e.Sound r s (x, pos)) : Disciplined r c (s.remember x pos e) := by
  have hne : ∀ a ∈ c.trail, a.key ≠ (x, pos) :=
    fun a ha hk => hfree (.inl (mem_keys.mpr ⟨a, ha, hk⟩))
  exact d.remember (clear_of_free hfree) (fun a ha _ => hne a ha)
    (fun a ha _ hk => absurd hk (hne a ha)) (fun a ha => hfree (.inr ⟨a, ha⟩)) he hsound

theorem release (d : Disciplined r c s) {k : Key} (hk : s.Knows id k)
    (hkey : k ∉ Scene.keys c.trail) : Disciplined r c (s.release id) := by
  refine ⟨d.tracked.release hk hkey, d.remembered.congr rfl fun i k' hk' => ?_⟩
  refine hk'.congr (Nat.le_refl _) fun h hh => ⟨h, ?_, rfl⟩
  rw [Session.release, Std.HashMap.getElem?_erase] at hh
  split at hh
  · cases hh
  · exact hh

/-- A head is released that was kept in mind and whose anchor is under way no more. -/
theorem forget {k : Key} (d : Disciplined r (c.know id k) s) (hkey : k ∉ Scene.keys c.trail) :
    Disciplined r c (s.release id) :=
  (d.release (d.tracked.known id k (.inr ⟨rfl, rfl⟩)) hkey).mono (fun _ => Nat.le_refl _) fun _ _ =>
    .inl

/-! ### Applications of what is on offer or under way -/

/-- That a rule is on offer no more is forgotten. -/
theorem unspend {g : RuleGraph} {y : RuleId} (d : Disciplined r (c.spend g id y) s) :
    Disciplined r c s := by
  refine d.mono (fun i => ?_) fun _ _ h => h
  show (if i = id then (if g.contains y then c.caps id - 1 else c.caps id) else c.caps i) ≤ c.caps i
  by_cases hi : i = id
  · rw [if_pos hi, hi]
    split
    · exact Nat.sub_le _ _
    · exact Nat.le_refl _
  · rw [if_neg hi]

/-- What was on offer has been evaluated anew, and its answer is remembered for good. -/
theorem remember_offered (d : Disciplined r c s) (hoffered : Offered c (x, pos)) {a : Answer}
    (ha : r.Answers x pos a) : Disciplined r c (s.remember x pos (.final a)) :=
  d.remember hoffered.clear hoffered.no_frame (fun _ _ _ _ => ⟨a, rfl⟩) hoffered.not_settled trivial
    ha

theorem spend (d : Disciplined r c s) (hel : s.isEligible x pos = true)
    (hgrowing : growingAt c.trail pos = some id) :
    Disciplined r (c.spend r.graph id x) (s.spend x pos) := by
  have hop : ∀ i k, Tracked r.graph (c.know i k) s →
      Tracked r.graph ((c.spend r.graph id x).know i k) (s.spend x pos) :=
    fun _ _ t => t.spend hel hgrowing
  exact ⟨d.tracked.spend hel hgrowing,
    (d.remembered.rescope (by rfl) (by rfl)).congr memo_spend (d.tracked.knows_stable hop)⟩

/-- The frame that an entry in progress names is that of its application. -/
theorem frame_of_inProgress (d : Disciplined r c s) {number : Nat}
    (hentry : s.remembered? x pos = some (.inProgress number)) :
    ∃ f, s.frame? number = some f ∧ f.key = (x, pos) := by
  have hkey := d.tracked.frame?_key number
  rw [(d.remembered.inProgress (x, pos) number).mp hentry] at hkey
  exact Option.map_eq_some_iff.mp hkey

theorem reenter (d : Disciplined r c s) (hpos : ∀ a ∈ c.trail, a.pos ≤ pos) {number : Nat}
    (hentry : s.remembered? x pos = some (.inProgress number)) :
    Disciplined r c (s.reenter number) := by
  obtain ⟨f, hf, hkey⟩ := d.frame_of_inProgress hentry
  obtain rfl : f.pos = pos := congrArg Prod.snd hkey
  exact ⟨d.tracked.reenter hf hpos, d.remembered.congr (memo_reenter number)
    (d.tracked.knows_stable fun _ _ t => t.reenter hf hpos)⟩

/-- All frames above one that is applied again belong to a head of another. -/
theorem reenter_tie (d : Disciplined r c s) (hpos : ∀ a ∈ c.trail, a.pos ≤ pos) {number n : Nat}
    (hentry : s.remembered? x pos = some (.inProgress number)) (hn : number < n) :
    Disciplined r (c.tie n) (s.reenter number) := by
  obtain ⟨f, hf, hkey⟩ := d.frame_of_inProgress hentry
  obtain rfl : f.pos = pos := congrArg Prod.snd hkey
  have d' := d.reenter hpos hentry
  refine ⟨{ d'.tracked with tied := fun number' e htied he => ?_ }, d'.remembered.rescope rfl rfl⟩
  rcases htied with htied | rfl
  · exact d'.tracked.tied number' e htied he
  · exact d.tracked.reenter_tied hf hpos hn he

/-- A head whose anchor is under way, and in which an entry is involved, has a frame, and is at the
position of the entry. -/
theorem head_of_involved (d : Disciplined r c s) {a : Answer}
    (hentry : s.remembered? x pos = some (.involved a id)) (hunder : s.anchorUnderWay id = true) :
    ∃ h, s.heads[id]? = some h ∧ h.pos = pos ∧ ∃ f ∈ s.frames, f.head = some id := by
  obtain ⟨f, hf, hhead, hanchor⟩ := anchorUnderWay_iff.mp hunder
  obtain ⟨h, hs, _⟩ := (Option.any_eq_true _ _).mp hanchor
  obtain ⟨_, y, hknows⟩ := d.remembered.sound (x, pos) _ hentry
  exact ⟨h, hs, congrArg Prod.snd (hknows.2 h hs), f, hf, hhead⟩

theorem involve (d : Disciplined r c s) (hpos : ∀ a ∈ c.trail, a.pos ≤ pos) {a : Answer}
    (hentry : s.remembered? x pos = some (.involved a id)) (hunder : s.anchorUnderWay id = true) :
    Disciplined r c (s.involve id) := by
  obtain ⟨h, hs, rfl, hframe⟩ := d.head_of_involved hentry hunder
  exact ⟨d.tracked.involve hs hframe hpos, d.remembered.congr memo_involve
    (d.tracked.knows_stable fun _ _ t => t.involve hs hframe hpos)⟩

end Disciplined

end Packrat
