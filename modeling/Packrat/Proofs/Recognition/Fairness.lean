import Packrat.Proofs.Recognition.Endless
import Packrat.Proofs.Recognition.Termination

/-! Cycles leave plain applications alone.

Only endless applications have frames that others are applied from, so only they are anchors and
involved in heads, and only they are on offer while a head grows (`Session.Fair`). Whatever an
application does to the entries of endless ones, what is remembered of plain ones stays right; and a
plain application in between does nothing but remember what it means. So every session that
applications lead to is fair (`Reachable.fair`), those with cycles and errors among them. -/
namespace Packrat
open Recognizer

/-- What is remembered is right, and heads deal with endless applications only. -/
structure Session.Fair (r : Recognizer) (s : Session) : Prop where
  faithful : s.Faithful r
  heads : ∀ (id : HeadId) (h : Head), s.heads[id]? = some h → ∀ x ∈ h.involved ++ h.eligible,
    r.Endless x h.pos

/-- Each of the entries is that of some faithful session. -/
def Recognizer.Copied (r : Recognizer) (pos : Nat) (entries : List (RuleId × Entry)) : Prop :=
  ∀ y e, (y, e) ∈ entries → ∃ t : Session, t.Faithful r ∧ t.memo[(y, pos)]? = some e

variable {r : Recognizer} {c : Scene} {s s' : Session} {x : RuleId} {pos : Nat} {id : HeadId}

/-- What has a frame in a faithful session is endless, for its entry is in progress. -/
theorem Disciplined.endless (d : Disciplined r c s) (h : s.Faithful r) :
    ∀ k ∈ Scene.frameKeys c.trail, r.Endless k.1 k.2 := by
  intro k hk
  obtain ⟨number, hnumber⟩ := List.getElem?_of_mem (List.mem_reverse.mpr hk)
  exact h.inProgress k number ((d.remembered.inProgress k number).mpr hnumber)

namespace Session

theorem fair_start (r : Recognizer) : ({} : Session).Fair r := by
  refine ⟨faithful_start r, fun id h hs => ?_⟩
  rw [show ({} : Session).heads[id]? = none from Std.HashMap.getElem?_empty] at hs
  cases hs

namespace Fair

/-- Heads may only deal with less than before. -/
theorem congr (h : s.Fair r) (hfaithful : s'.Faithful r)
    (hheads : ∀ (id : HeadId) (h' : Head), s'.heads[id]? = some h' →
      ∃ h, s.heads[id]? = some h ∧ h'.pos = h.pos ∧
        ∀ x ∈ h'.involved ++ h'.eligible, x ∈ h.involved ++ h.eligible) : s'.Fair r := by
  refine ⟨hfaithful, fun id h' hs' x hx => ?_⟩
  obtain ⟨hd, hs, hpos, hsub⟩ := hheads id h' hs'
  rw [hpos]
  exact h.heads id hd hs x (hsub x hx)

/-- What neither touches memory nor heads leaves a session fair. -/
theorem of_eq (h : s.Fair r) (hmemo : s'.memo = s.memo) (hheads : s'.heads = s.heads) : s'.Fair r :=
  h.congr (h.faithful.congr fun _ => .inl (by rw [hmemo])) fun _ h' hs' =>
    ⟨h', hheads ▸ hs', rfl, fun _ hx => hx⟩

theorem modifyHead (h : s.Fair r) (id : HeadId) {f : Head → Head}
    (hf : ∀ h : Head, (f h).pos = h.pos ∧ ∀ x ∈ (f h).involved ++ (f h).eligible,
      x ∈ h.involved ++ h.eligible) :
    (s.modifyHead id f).Fair r := by
  refine h.congr (h.faithful.congr fun _ => .inl (by rw [memo_modifyHead])) fun i h' hs' => ?_
  rw [heads_modifyHead] at hs'
  by_cases hi : i = id
  · rw [if_pos hi] at hs'
    obtain ⟨hd, hs, rfl⟩ := Option.map_eq_some_iff.mp hs'
    exact ⟨hd, hs, hf hd⟩
  · rw [if_neg hi] at hs'
    exact ⟨h', hs', rfl, fun _ hx => hx⟩

theorem setEntry (h : s.Fair r) (hx : r.Endless x pos) (e : Entry) : (s.setEntry x pos e).Fair r :=
  h.congr (h.faithful.insert hx rfl) fun _ h' hs' => ⟨h', hs', rfl, fun _ hx => hx⟩

theorem enter (h : s.Fair r) (hx : r.Endless x pos) : (s.enter x pos).Fair r :=
  (h.setEntry hx (.inProgress s.frames.length)).of_eq rfl rfl

/-- That something was remembered is noted on a head, which deals with no more for that. -/
theorem noted {e : Entry} (h : (s.setEntry x pos e).Fair r) : (s.remember x pos e).Fair r := by
  rw [Session.remember]
  split
  · exact h.modifyHead _ fun _ => ⟨rfl, fun _ hx => hx⟩
  · exact h

theorem remember (h : s.Fair r) (hx : r.Endless x pos) (e : Entry) : (s.remember x pos e).Fair r :=
  noted (h.setEntry hx e)

theorem dropEntry (h : s.Fair r) (x : RuleId) (pos : Nat) : (s.dropEntry x pos).Fair r := by
  refine h.congr (h.faithful.congr fun k => ?_) fun _ h' hs' => ⟨h', hs', rfl, fun _ hx => hx⟩
  by_cases hk : k = (x, pos)
  · subst hk
    exact .inr (.inl Std.HashMap.getElem?_erase_self)
  · exact .inl (dropEntry_other hk)

theorem spend (h : s.Fair r) (x : RuleId) (pos : Nat) : (s.spend x pos).Fair r := by
  rw [Session.spend]
  split
  · refine h.modifyHead _ fun hd => ⟨rfl, fun y hy => ?_⟩
    rcases List.mem_append.mp hy with hy | hy
    · exact List.mem_append_left _ hy
    · exact List.mem_append_right _ (List.mem_of_mem_erase hy)
  · exact h

theorem dropEntries (h : s.Fair r) (rules : List RuleId) (pos : Nat) :
    (rules.foldl (·.dropEntry · pos) s).Fair r := by
  induction rules generalizing s with
  | nil => exact h
  | cons y rest ih => exact ih (h.dropEntry y pos)

theorem discard (h : s.Fair r) (id : HeadId) (x : RuleId) (pos : Nat) :
    (s.discard id x pos).Fair r := by
  have hd : (s.modifyHead id fun h => { h with written := [] }).Fair r :=
    h.modifyHead id fun _ => ⟨rfl, fun _ hx => hx⟩
  exact hd.dropEntries _ pos

theorem startRound (h : s.Fair r) (id : HeadId) (x : RuleId) (pos : Nat) :
    (s.startRound id x pos).Fair r := by
  refine (h.discard id x pos).modifyHead id fun hd => ⟨rfl, fun y hy => List.mem_append_left _ ?_⟩
  rcases List.mem_append.mp hy with hy | hy <;> exact hy

theorem release (h : s.Fair r) (id : HeadId) : (s.release id).Fair r :=
  h.congr (h.faithful.congr fun _ => .inl rfl) fun _ h' hs' =>
    ⟨h', (heads_release_eq_some.mp hs').2, rfl, fun _ hx => hx⟩

/-- What the last good round has remembered is right, and may be remembered for good. -/
theorem committed (h : s.Fair r) {entries : List (RuleId × Entry)}
    (hentries : r.Copied pos entries) :
    (entries.foldl (fun s (y, e) => s.remember y pos e) s).Fair r := by
  induction entries generalizing s with
  | nil => exact h
  | cons entry rest ih =>
    obtain ⟨t, ht, hentry⟩ := hentries entry.1 entry.2 (List.mem_cons_self ..)
    have hset : (s.setEntry entry.1 pos entry.2).Fair r :=
      h.congr (h.faithful.insert_of ht hentry rfl) fun _ h' hs' => ⟨h', hs', rfl, fun _ hx => hx⟩
    exact ih (noted hset) fun y e hy => hentries y e (List.mem_cons_of_mem _ hy)

/-- What has a frame may be involved in a head at the innermost position. -/
theorem involve (h : s.Fair r) (t : Tracked r.graph c s)
    (hendless : ∀ k ∈ Scene.frameKeys c.trail, r.Endless k.1 k.2) {hd : Head}
    (hs : s.heads[id]? = some hd) (hframe : ∃ f ∈ s.frames, f.head = some id)
    (hpos : ∀ a ∈ c.trail, a.pos ≤ hd.pos) : (s.involve id).Fair r := by
  obtain ⟨above, f, below, hframes, _, hf, hjoin, hrules⟩ := Tracked.frames_split hframe
  refine ⟨h.faithful.congr fun _ => .inl (by rw [memo_involve]), fun i h' hs' x hx => ?_⟩
  simp only [Session.involve, hs, hrules] at hs'
  rcases heads_insert_eq_some.mp hs' with ⟨rfl, rfl⟩ | ⟨_, hother⟩
  · have hcase : x ∈ hd.involved ++ hd.eligible ∨ x ∈ above.map (·.rule) := by
      simp only [List.mem_append, mem_foldl_insert] at hx ⊢
      grind
    rcases hcase with hx | hx
    · exact h.heads i hd hs x hx
    · obtain ⟨e, he, rfl⟩ := List.mem_map.mp hx
      have hkey : e.key ∈ Scene.frameKeys c.trail := by
        rw [← t.frames_eq, hframes]
        exact List.mem_map_of_mem (List.mem_append_left _ he)
      have hepos := t.above_pos hframes hf hs hpos e he
      exact hepos ▸ hendless e.key hkey
  · exact h.heads i h' hother x hx

theorem newHead (h : s.Fair r) (number : Nat) (f : Frame) : (s.newHead number f).Fair r := by
  refine ⟨h.faithful.congr fun _ => .inl rfl, fun i h' hs' x hx => ?_⟩
  rcases heads_insert_eq_some.mp hs' with ⟨_, rfl⟩ | ⟨_, hother⟩
  · cases hx
  · exact h.heads i h' hother x hx

theorem reenter (h : s.Fair r) (d : Disciplined r c s) (hpos : ∀ a ∈ c.trail, a.pos ≤ pos)
    {number : Nat} (hentry : s.remembered? x pos = some (.inProgress number)) :
    (s.reenter number).Fair r := by
  obtain ⟨f, hf, hkey⟩ := d.frame_of_inProgress hentry
  obtain rfl : f.pos = pos := congrArg Prod.snd hkey
  obtain ⟨above, below, hframes, rfl⟩ := frame?_eq_some_iff.mp hf
  have hendless := d.endless h.faithful
  cases hhead : f.head with
  | some id =>
    have hmem : f ∈ s.frames := hframes ▸ List.mem_append_right _ (List.mem_cons_self ..)
    obtain ⟨hd, hs, hhpos, _⟩ := d.tracked.tagged.mem hmem hhead
    rw [reenter_of_head hf hhead]
    exact h.involve d.tracked hendless hs ⟨f, hmem, hhead⟩ fun a ha => hhpos ▸ hpos a ha
  | none =>
    rw [reenter_of_no_head hf hhead]
    refine (h.newHead _ f).involve (d.tracked.newHead hf hhead) hendless (heads_newHead_self ..)
      ⟨f.join s.nextHead, ?_, rfl⟩ hpos
    rw [frames_newHead hframes]
    exact List.mem_append_right _ (List.mem_cons_self ..)

/-- What is on offer at a position is endless, for the head that grows there is at this position. -/
theorem eligible (h : s.Fair r) (t : Tracked r.graph c s) (y : RuleId) (p : Nat)
    (hel : s.isEligible y p = true) : r.Endless y p := by
  obtain ⟨id, hd, hgrowing, hs, hy⟩ := Tracked.eligible_head hel
  obtain ⟨hd', hs', hpos, _⟩ := t.growing_head hgrowing
  cases hs.symm.trans hs'
  rw [← hpos]
  exact h.heads id hd hs y (List.mem_append_right _ hy)

/-- Plain applications leave a session fair. -/
theorem aside (h : s.Fair r) (haside : s.Aside r s') : s'.Fair r := by
  refine h.congr (h.faithful.aside haside) fun id h' hs' => ?_
  obtain ⟨hd, hs, heq⟩ := haside.head hs'
  obtain ⟨_, hpos, hinvolved, heligible⟩ := Head.eq_of_unwritten heq
  exact ⟨hd, hs, hpos, fun x hx => hinvolved ▸ heligible ▸ hx⟩

end Fair

end Session

namespace Recognizer

/-- In a scene as it is said to be, the work leaves a fair session fair, whichever way it ends. -/
def Spares {α : Type} (r : Recognizer) (c : Scene) (w : Recognition α) : Prop :=
  ∀ s, Disciplined r c s → s.Fair r → Ends w s (fun _ s' => s'.Fair r) fun _ s' => s'.Fair r

/-- The work spares what it is to spare, and settles. -/
theorem Spares.and {α : Type} {w : Recognition α} {E : Stop → Prop} {Q : α → Prop}
    (hw : r.Spares c w) (h : Upholds (Disciplined r c) E w Q) :
    Upholds (fun s => Disciplined r c s ∧ s.Fair r) E w Q := fun s hs =>
  ((h s hs.1).and (hw s hs.1 hs.2)).mono (fun _ _ h => ⟨h.1.1, h.1.2, h.2⟩) fun _ _ h =>
    ⟨h.1.1, h.1.2, h.2⟩

/-! ### Bodies -/

variable {rec eval : RuleId → Nat → Recognition Answer} {d : Nat}

theorem tracedBody_spares (hrec : r.Settles rec d)
    (hspares : ∀ c y q, Scene.Ready c q → r.cost c q < d → r.Spares c (rec y q))
    (hready : c.Ready pos) (hcost : r.graph.contains x = true → r.cost c pos < d) :
    r.Spares c (tracedBody rec r x pos) := by
  intro s dis hs
  have hupholds : Upholds (fun s => Disciplined r c s ∧ s.Fair r) (r.Permitted x)
      (tracedBody rec r x pos) (r.Answers x pos) := by
    refine tracedBody_settles (fun s e h => ⟨h.1.record e, h.2.of_eq rfl rfl⟩) fun y q hcalls => ?_
    obtain ⟨hready', hcost'⟩ := hcalls.fits hready hcost
    exact (hspares c y q hready' hcost').and (hrec c y q hready' hcost')
  exact (hupholds s ⟨dis, hs⟩).mono (fun _ _ h => h.2.2) fun _ _ h => h.2.2

/-! ### Growth -/

theorem growRounds_spares (hx : r.Endless x pos) (hcap : r.graph.size ≤ c.caps id)
    (hbody : Upholds (Disciplined r (c.push ⟨x, pos, some id⟩)) (r.Permitted x) (eval x pos)
        (r.Answers x pos))
    (hspares : r.Spares (c.push ⟨x, pos, some id⟩) (eval x pos)) (n : Nat) (growth : Growth)
    (dis : Disciplined r (c.push ⟨x, pos, some id⟩) s) (hs : s.Fair r)
    (hcommitted : r.Copied pos growth.committed) :
    Ends (growRounds eval id x pos n growth) s
      (fun growth s' => r.Copied pos growth.committed ∧ s'.Fair r) fun _ s' => s'.Fair r := by
  induction n generalizing growth s with
  | zero => exact hs
  | succ n ih =>
    rw [growRounds, ends_bind, ends_modify, ends_bind]
    refine (hspares.and hbody _ ⟨dis.startRound hcap, hs.startRound id x pos⟩).mono
      (fun a s₁ h => ?_) fun _ _ h => h.2.2
    obtain ⟨ha, dis₁, hs₁⟩ := h
    split
    · have hset := hs₁.setEntry hx (.final a)
      rw [ends_bind, ends_modify, ends_bind, ends_get]
      refine ih _ (dis₁.improve ha) hset fun y e hy => ?_
      obtain ⟨_, _, _, hentry⟩ := mem_writtenEntries hy
      exact ⟨_, hset.faithful, hentry⟩
    · exact ⟨hcommitted, hs₁⟩

/-- The entries that the last good round has left are remembered for good, and all else that is
known of it is forgotten. -/
theorem endGrow_spares (hx : r.Endless x pos) (outer : Option HeadId) (outcome : Except Stop Growth)
    (hs : s.Fair r) (houtcome : ∀ growth, outcome = .ok growth → r.Copied pos growth.committed) :
    Ends (endGrow r id x pos outer outcome) s (fun _ s' => s'.Fair r) fun _ s' => s'.Fair r := by
  have hended : (s.endGrowth id x pos outer).Fair r := (hs.discard id x pos).of_eq rfl rfl
  rw [endGrow, ends_bind, ends_modify, ends_bind, ends_result]
  cases outcome with
  | error e => exact hended
  | ok growth =>
    have hfinal := (hended.committed (houtcome growth rfl)).remember hx (.final growth.best)
    dsimp only
    rw [ends_bind, ends_modify, ends_bind, ends_modify, ends_bind]
    cases r.graph.rule x with
    | ok found => exact hfinal.of_eq rfl rfl
    | error e => cases e <;> exact hfinal

theorem grow_spares {seed : Answer} (hx : r.Endless x pos)
    (h : Growth.Start r eval c id x pos seed s)
    (hspares : r.Spares ((c.cap id r.graph.size).push ⟨x, pos, some id⟩) (eval x pos))
    (hs : s.Fair r) :
    Ends (grow eval r id x pos seed) s (fun _ s' => s'.Fair r) fun _ s' => s'.Fair r := by
  have hrounds := growRounds_spares hx (cap_self ..) (h.body _) hspares (r.remaining pos + 1)
    { best := seed } h.begun (hs.of_eq rfl rfl) fun _ _ hnone => absurd hnone List.not_mem_nil
  rw [grow, ends_bind, ends_get, ends_bind, ends_modify, ends_bind, ends_outcomeOf]
  refine hrounds.mono (fun growth s₁ h₁ => ?_) fun e s₁ hs₁ => ?_
  · refine endGrow_spares hx _ (.ok growth) h₁.2 fun growth' heq => ?_
    cases heq
    exact h₁.1
  · exact endGrow_spares hx _ (.error e) hs₁ fun _ heq => by cases heq

/-! ### Applications -/

section
variable (heval : r.Evaluates eval d)
  (hspares : ∀ c y q, Scene.Ready c q → (r.graph.contains y = true → r.cost c q < d) →
  r.Spares c (eval y q))
  (hready : c.Ready pos) (hcost : r.cost c pos < d + 1) (hx : r.Endless x pos)
include heval hspares hready hcost hx

theorem leaveWith_spares (outcome : Except Stop Answer)
    (dis : Disciplined r (c.push ⟨x, pos, none⟩) s)
    (houtcome : ∀ a, outcome = .ok a → r.Answers x pos a) (hs : s.Fair r) :
    Ends (leaveWith eval r x pos outcome) s (fun _ s' => s'.Fair r) fun _ s' => s'.Fair r := by
  have hleft : s.leave.Fair r := hs.of_eq rfl rfl
  rw [leaveWith, ends_bind, ends_get, ends_bind, ends_modify]
  cases outcome with
  | error e =>
    have hdropped := hleft.dropEntry x pos
    dsimp only
    rw [ends_bind, ends_modify]
    split
    · exact hdropped.release _
    · exact hdropped
  | ok a =>
    cases htop : s.top with
    | none => exact hleft.remember hx (.final a)
    | some top =>
      obtain ⟨id, anchors⟩ := top
      cases anchors with
      | false => exact hleft.remember hx (.involved a id)
      | true =>
        have hfinal := hleft.remember hx (.final a)
        dsimp only
        rw [ends_bind, ends_modify]
        by_cases hm : a.matched = true
        · have hkey : (x, pos) ∉ Scene.keys c.trail := fun hk => dis.head_free (.inl hk)
          have hstart := leave_start heval hready hcost dis htop (houtcome a rfl) hm
          have hgrows := grow_spares hx hstart
            (hspares _ x pos (hready.push x (some id)) (cost_growth_lt hkey hcost)) hfinal
          rw [if_pos hm, ends_bind, ends_outcomeOf]
          exact hgrows.mono (fun b s₁ h => h.release id) fun e s₁ h => h.release id
        · rw [if_neg hm]
          exact hfinal.release id

theorem applyFresh_spares (dis : Disciplined r c s) (hfree : ¬ c.Reserved c.trail (x, pos))
    (hel : ¬ s.isEligible x pos = true) (hs : s.Fair r) :
    Ends (applyFresh eval r x pos) s (fun _ s' => s'.Fair r) fun _ s' => s'.Fair r := by
  have hfits := cost_frame_lt (r := r) (x := x) (fun hk => hfree (.inl hk)) hcost
  have hbody :=
    (hspares _ x pos (hready.push x none) hfits).and (heval _ x pos (hready.push x none) hfits)
  rw [applyFresh, ends_bind, ends_modify, ends_bind, ends_outcomeOf]
  refine (hbody _ ⟨dis.enter hready hfree hel, hs.enter hx⟩).mono (fun a s₁ h => ?_) fun e s₁ h =>
    ?_
  · refine leaveWith_spares heval hspares hready hcost hx (.ok a) h.2.1 (fun b hb => ?_) h.2.2
    cases hb
    exact h.1
  · exact leaveWith_spares heval hspares hready hcost hx (.error e) h.2.1
      (fun _ heq => by cases heq) h.2.2

/-- An endless application leaves a fair session fair, if the evaluations of bodies do that it
makes. -/
theorem step_spares : r.Spares c (step eval r x pos) := by
  intro s dis hs
  rw [step, ends_bind]
  refine (tick_ends r s).mono ?_ fun _ s' h => h.1 ▸ hs.of_eq rfl rfl
  rintro _ _ rfl
  have dis' : Disciplined r c s.counted := dis.step
  have hs' : s.counted.Fair r := hs.of_eq rfl rfl
  rw [ends_bind, ends_get]
  by_cases hel : s.counted.isEligible x pos = true
  · obtain ⟨id, hgrow, hlower⟩ := spend_cost_lt dis' hel
    have hbody := hspares (c.spend r.graph id x) x pos hready fun hin =>
      Nat.lt_of_lt_of_le (hlower hin) (Nat.le_of_lt_succ hcost)
    rw [if_pos hel, ends_bind, ends_modify, ends_bind]
    exact (hbody _ (dis'.spend hel hgrow) (hs'.spend x pos)).mono
      (fun a s₁ h => h.remember hx (.final a)) fun _ _ h => h
  rw [if_neg hel, ends_bind, ends_get]
  cases hentry : s.counted.remembered? x pos with
  | none =>
    exact applyFresh_spares heval hspares hready hcost hx dis' (dis'.unknown_free hentry) hel hs'
  | some e =>
    cases e with
    | final a => exact hs'
    | inProgress number => exact hs'.reenter dis' hready.1 hentry
    | involved seed id =>
      dsimp only
      rw [ends_bind, ends_get]
      by_cases hunder : s.counted.anchorUnderWay id = true
      · obtain ⟨h, hhs, rfl, hframe⟩ := dis'.head_of_involved hentry hunder
        rw [if_pos hunder]
        exact hs'.involve dis'.tracked (dis'.endless hs'.faithful) hhs hframe hready.1
      rw [if_neg hunder, ends_bind, ends_get]
      by_cases hgrows : s.counted.growsAt pos id = true
      · rw [if_pos hgrows]
        exact hs'
      · have hfree := dis'.involved_free hentry
        rw [if_neg hgrows, ends_bind, ends_modify]
        exact applyFresh_spares heval hspares hready hcost hx (dis'.dropEntry hfree) hfree hel
          (hs'.dropEntry x pos)

end

/-- Without a limit on steps applications leave a fair session fair: endless ones as they touch only
entries of their kind, and plain ones as they mean what they answer. -/
theorem applyWithin_spares (hlimit : r.stepLimit = none) (depth : Nat) (c : Scene)
    (x : RuleId) (pos : Nat) (hready : c.Ready pos) (hcost : r.cost c pos < depth) :
    r.Spares c (r.applyWithin depth x pos) := by
  induction depth generalizing c x pos with
  | zero => exact absurd hcost (Nat.not_lt_zero _)
  | succ depth ih =>
    by_cases hx : r.Endless x pos
    · have hsettles := applyWithin_settles r depth
      refine step_spares hsettles.tracedBody (fun c y q hready' hcost' => ?_) hready hcost hx
      exact tracedBody_spares hsettles ih hready' hcost'
    · obtain ⟨result, hplain⟩ := plain_of_not_endless hx
      intro s dis hs
      exact (applyWithin_plain hlimit (depth + 1) hs.faithful (hs.eligible dis.tracked) hplain).mono
        (fun _ _ h => hs.aside h.2) fun _ _ h => hs.aside h.2

theorem apply_fair (hlimit : r.stepLimit = none) (dis : Disciplined r {} s) (hs : s.Fair r)
    (x : RuleId) (pos : Nat) : (r.apply x pos s).2.Fair r := by
  rw [apply]
  split
  · have hready := Scene.Ready.start (fun _ _ => False) pos
    exact ends_session.mp (applyWithin_spares hlimit r.depthBound {} x pos hready
      (cost_start_lt pos) s dis hs)
  · exact hs

/-- Whatever has been applied in a session, what is remembered of plain applications is what they
mean. -/
theorem Reachable.fair (hlimit : r.stepLimit = none) (hs : r.Reachable s) : s.Fair r := by
  induction hs with
  | start => exact Session.fair_start r
  | apply x pos h ih => exact apply_fair hlimit h.disciplined ih x pos

end Recognizer

end Packrat
