import Packrat.Proofs.Recognition.Following
import Packrat.Proofs.Recognition.Nesting

/-! What is made of the seed of an application under way.

A rule that is applied again where it is under way answers by its seed, that it does not match. What
is answered on these grounds holds only until the first application has grown. If anything nested in
the evaluation of a body is handed the seed of an application further out (`Call.HandsSeed`), the
frame of the body belongs to a head of another from then on (`applyUnless_ties`), and so the answer
is remembered as involved in that head (`involved_of_seed`).

An application that has answered and grows has no frame any more. If a seed is handed to one of
its rounds, nothing is made of it: the answer is final, although the application that answered by
its seed is still under way and may come to match (`final_of_seed`). -/
namespace Packrat

/-- Whether an application is to be answered by the seed of one with a lower number. -/
def Session.handsSeed (n : Nat) (x : RuleId) (pos : Nat) (s : Session) : Bool :=
  !s.isEligible x pos &&
    match s.remembered? x pos with
    | some (.inProgress number) => number < n
    | _ => false

/-- An application finds nothing that counts, so the body of its rule is evaluated, in a frame put
on top of this session. -/
inductive Session.Opens (s : Session) (x : RuleId) (pos : Nat) : Session → Prop where
  | unknown : ¬ s.isEligible x pos = true → s.memo[(x, pos)]? = none → s.Opens x pos s.counted
  /-- What is remembered was involved in a head that has finished. -/
  | outdated {seed : Answer} {id : HeadId} : ¬ s.isEligible x pos = true →
    s.memo[(x, pos)]? = some (.involved seed id) → s.anchorUnderWay id = false →
    s.growsAt pos id = false →
      s.Opens x pos (s.counted.dropEntry x pos)

namespace Recognizer

/-- The seed of an application with a number below `n` is handed out in the call, or in something
nested in it. -/
def Call.HandsSeed (r : Recognizer) (n : Nat) (c : Call) : Prop :=
  ∃ c', r.Nested c c' ∧ c'.task = .apply ∧ c'.session.handsSeed n c'.rule c'.pos = true

variable {r : Recognizer} {eval : RuleId → Nat → Recognition Answer} {c : Scene} {s t : Session}
  {x : RuleId} {pos n depth : Nat}

/-- The seed of an application further out ties all frames above it. -/
theorem step_ties (hready : c.Ready pos) (dis : Disciplined r c s)
    (hseed : s.handsSeed n x pos = true) :
    Ends (step eval r x pos) s (fun _ s' => Disciplined r (c.tie n) s') fun _ _ => True := by
  obtain ⟨hel, hentry⟩ := Bool.and_eq_true_iff.mp hseed
  have hel' : ¬ s.counted.isEligible x pos = true := fun h => by
    rw [show s.isEligible x pos = true from h] at hel
    cases hel
  rw [step, ends_bind]
  refine (tick_ends r s).mono ?_ fun _ _ _ => trivial
  rintro _ _ rfl
  rw [ends_bind, ends_get, if_neg hel', ends_bind, ends_get]
  have hsame : s.counted.remembered? x pos = s.remembered? x pos := rfl
  cases heq : s.remembered? x pos with
  | none =>
    rw [heq] at hentry
    cases hentry
  | some e =>
    rw [heq] at hentry
    rw [hsame, heq]
    cases e with
    | inProgress number =>
      exact dis.step.reenter_tie hready.1 (hsame.trans heq) (of_decide_eq_true hentry)
    | final a => cases hentry
    | involved seed id => cases hentry

/-- What stops where such a seed is handed out is no different before; and from there on, the frame
of the number is tied in the end. -/
theorem applyUnless_ties (r : Recognizer) (n depth : Nat) :
    r.Ties n (r.applyUnless (Session.handsSeed n) depth) (r.applyWithin depth) depth := by
  induction depth with
  | zero => exact fun _ _ _ _ _ _ h => absurd h (Nat.not_lt_zero _)
  | succ depth ih =>
    intro c x pos s hready hn hcost dis
    rw [Follows, applyUnless_run]
    by_cases hseed : s.handsSeed n x pos = true
    · rw [if_pos hseed]
      exact .inr ⟨rfl, step_ties hready dis hseed⟩
    · rw [if_neg hseed]
      have hsettles := applyWithin_settles r depth
      exact (ih.tracedBody hsettles).step hsettles.tracedBody c x pos s hready hn hcost dis

/-- An application leaves its answer involved in a head if in the evaluation of its body a seed from
further out is handed out. -/
theorem applyFresh_involves (hready : c.Ready pos) (hcost : r.cost c pos < depth + 1)
    (dis : Disciplined r c s) (hfree : ¬ c.Reserved c.trail (x, pos))
    (hel : ¬ s.isEligible x pos = true)
    (hseed : Call.HandsSeed r s.frames.length ⟨.evaluate, depth, x, pos, s.enter x pos⟩) :
    Ends (applyFresh (tracedBody (r.applyWithin depth) r) r x pos) s
      (fun a s' => ∃ id, s'.memo[(x, pos)]? = some (.involved a id) ∧ s'.anchorUnderWay id = true)
      fun _ _ => True := by
  have hlength : s.frames.length = (Scene.frameKeys c.trail).length := by
    rw [← dis.tracked.frames_eq, List.length_map]
  obtain ⟨c', hnested, htask, hbad⟩ := hseed
  rw [hlength] at hbad
  have hhalts := (Call.halts_of_bad htask hbad).of_nested hnested
  have hsettles := applyWithin_settles r depth
  have hlt := cost_frame_lt (fun hk => hfree (.inl hk)) hcost
  have hpush := hready.push x none
  have hentered := dis.enter hready hfree hel
  have hbody : Ends (tracedBody (r.applyWithin depth) r x pos) (s.enter x pos)
      (fun _ s' => Disciplined r ((c.push ⟨x, pos, none⟩).tie (Scene.frameKeys c.trail).length) s')
      fun _ _ => True := by
    rcases (applyUnless_ties r (Scene.frameKeys c.trail).length depth).tracedBody hsettles
      _ x pos _ hpush (Nat.lt_succ_self _) hlt hentered with heq | ⟨_, hties⟩
    · exact absurd ((congrArg Prod.fst heq).symm.trans hhalts)
        (not_exhausted (hsettles.tracedBody _ x pos hpush hlt) hentered)
    · exact hties
  rw [applyFresh, ends_bind, ends_modify, ends_bind, ends_outcomeOf]
  refine hbody.mono (fun a s₁ d₁ => ?_) fun e s₁ _ => ?_
  · have d₂ : Disciplined r ((c.tie (Scene.frameKeys c.trail).length).push ⟨x, pos, none⟩) s₁ := d₁
    obtain ⟨id, htop⟩ := d₂.tracked.top_of_tied (.inr rfl)
    rw [leaveWith, ends_bind, ends_get, ends_bind, ends_modify, htop]
    exact ⟨id, remember_self _, (anchorUnderWay_remember (s := s₁.leave) _).trans
      (d₂.tracked.anchor_below htop)⟩
  · exact (leaveWith_stops _ r x pos e s₁).answers fun _ _ h => h.elim

/-- If in a run an application has its body evaluated, and in this evaluation or anything nested in
it the seed of an application further out is handed out, then what it answers is remembered as
involved in a head, the anchor of which is under way. -/
theorem involved_of_seed {a : Answer} (hbegun : r.Begun .apply (depth + 1) x pos s)
    (hopens : s.Opens x pos t)
    (hseed : Call.HandsSeed r s.frames.length ⟨.evaluate, depth, x, pos, t.enter x pos⟩)
    (ha : (r.applyWithin (depth + 1) x pos s).1 = .ok a) :
    ∃ id, (r.applyWithin (depth + 1) x pos s).2.memo[(x, pos)]? = some (.involved a id) ∧
      (r.applyWithin (depth + 1) x pos s).2.anchorUnderWay id = true := by
  obtain ⟨c, hready, hcost, dis⟩ := hbegun.disciplined
  have hends : Ends (r.applyWithin (depth + 1) x pos) s
      (fun a s' => ∃ id, s'.memo[(x, pos)]? = some (.involved a id) ∧ s'.anchorUnderWay id = true)
      fun _ _ => True := by
    rw [applyWithin, step, ends_bind]
    refine (tick_ends r s).mono ?_ fun _ _ _ => trivial
    rintro _ _ rfl
    rw [ends_bind, ends_get]
    cases hopens with
    | unknown hel hentry =>
      have hel' : ¬ s.counted.isEligible x pos = true := hel
      have hentry' : s.counted.remembered? x pos = none := hentry
      have hfree := dis.step.unknown_free hentry'
      rw [if_neg hel', ends_bind, ends_get, hentry']
      exact applyFresh_involves hready hcost dis.step hfree hel' hseed
    | outdated hel hentry hunder hgrows =>
      have hel' : ¬ s.counted.isEligible x pos = true := hel
      have hunder' : ¬ s.counted.anchorUnderWay _ = true := Bool.eq_false_iff.mp hunder
      have hgrows' : ¬ s.counted.growsAt pos _ = true := Bool.eq_false_iff.mp hgrows
      have hentry' : s.counted.remembered? x pos = _ := hentry
      have hfree := dis.step.involved_free hentry'
      rw [if_neg hel', ends_bind, ends_get, hentry']
      dsimp only
      rw [ends_bind, ends_get, if_neg hunder', ends_bind, ends_get, if_neg hgrows', ends_bind,
        ends_modify]
      exact applyFresh_involves hready hcost (dis.step.dropEntry hfree) hfree hel' hseed
  exact hends.of_ok ha

set_option maxRecDepth 20000 in
theorem involved_of_seed_list :
    let g : RuleGraph := ⟨#[⟨"list", .choice [⟨1⟩, ⟨2⟩], {}⟩, ⟨"more", .sequence [⟨0⟩, ⟨2⟩], {}⟩,
      ⟨"x", .literal "x", {}⟩]⟩
    let r : Recognizer := { graph := g, buffer := .ofList ['x', 'x'] }
    let s := (Session.counted {}).enter ⟨0⟩ 0
    let after := (r.applyWithin (498 + 1) ⟨1⟩ 0 s).2
    r.Begun .apply (498 + 1) ⟨1⟩ 0 s ∧ s.Opens ⟨1⟩ 0 s.counted ∧
      Call.HandsSeed r s.frames.length ⟨.evaluate, 498, ⟨1⟩, 0, s.counted.enter ⟨1⟩ 0⟩ ∧
      (r.applyWithin (498 + 1) ⟨1⟩ 0 s).1 = .ok (.fail ⟨1⟩ 0) ∧
      ∃ id, after.memo[((⟨1⟩, 0) : Key)]? = some (.involved (.fail ⟨1⟩ 0) id) ∧
      after.anchorUnderWay id = true := by
  intro g r s after
  have hdepth : r.depthBound = 498 + 1 + 1 := by cbv
  have hfirst : r.Begun .apply (498 + 1 + 1) ⟨0⟩ 0 {} := hdepth ▸ Begun.first 0 .start rfl
  have hlist :=
    Begun.fresh rfl hfirst (not_eligible Std.HashMap.getElem?_empty) Std.HashMap.getElem?_empty
  have hbegun : r.Begun .apply (498 + 1) ⟨1⟩ 0 s := Begun.choice rfl hlist ⟨_, rfl, rfl⟩
  have hnone : s.memo[((⟨1⟩, 0) : Key)]? = none :=
    (setEntry_other (by decide) _).trans Std.HashMap.getElem?_empty
  have hopens : s.Opens ⟨1⟩ 0 s.counted := .unknown (not_eligible Std.HashMap.getElem?_empty) hnone
  have hhalts : (tracedBody (r.applyUnless (Session.handsSeed s.frames.length) 498) r ⟨1⟩ 0
      (s.counted.enter ⟨1⟩ 0)).1 = .error .exhausted := by cbv
  have hbody : Call.Begun r ⟨.evaluate, 498, ⟨1⟩, 0, s.counted.enter ⟨1⟩ 0⟩ :=
    Begun.fresh rfl hbegun (not_eligible Std.HashMap.getElem?_empty) hnone
  have hseed := (Call.halts_iff hbody.not_exhausted).mp hhalts
  have ha : (r.applyWithin (498 + 1) ⟨1⟩ 0 s).1 = .ok (.fail ⟨1⟩ 0) := by cbv
  exact ⟨hbegun, hopens, hseed, ha, involved_of_seed hbegun hopens hseed ha⟩

set_option maxRecDepth 20000 in
/-- The rule r anchors a cycle of its own and grows. The second round is handed the seed of q, which
is still under way, but the answer of r is final; so q, when it grows in turn, never comes to match
all three letters. -/
theorem final_of_seed :
    let g : RuleGraph := ⟨#[⟨"q", .choice [⟨1⟩, ⟨2⟩], {}⟩, ⟨"qz", .sequence [⟨4⟩, ⟨3⟩], {}⟩,
      ⟨"ab", .literal "ab", {}⟩, ⟨"z", .literal "z", {}⟩, ⟨"r", .choice [⟨5⟩, ⟨0⟩], {}⟩,
      ⟨"ra", .sequence [⟨6⟩, ⟨7⟩], {}⟩, ⟨"r?", .optional ⟨4⟩, {}⟩, ⟨"a", .literal "a", {}⟩]⟩
    let r : Recognizer := { graph := g, buffer := .ofList ['a', 'b', 'z'] }
    let s := ((Session.counted {}).enter ⟨0⟩ 0).counted.enter ⟨1⟩ 0
    r.Begun .apply (4997 + 1) ⟨4⟩ 0 s ∧ s.Opens ⟨4⟩ 0 s.counted ∧
      Call.HandsSeed r 1 ⟨.apply, 4997 + 1, ⟨4⟩, 0, s⟩ ∧
      (r.applyWithin (4997 + 1) ⟨4⟩ 0 s).2.memo[((⟨4⟩, 0) : Key)]? =
        some (.final (.node ⟨4⟩ 0 1 [.node ⟨5⟩ 0 1 [.node ⟨6⟩ 0 0 [], .node ⟨7⟩ 0 1 []]])) ∧
      (r.applyWithin (4997 + 1) ⟨4⟩ 0 s).2.memo[((⟨0⟩, 0) : Key)]? = some (.inProgress 0) ∧
      (r.apply ⟨0⟩ 0 {}).1 = .ok (.node ⟨0⟩ 0 2 [.node ⟨2⟩ 0 2 []]) := by
  intro g r s
  have hhalts : (r.applyUnless (Session.handsSeed 1) (4997 + 1) ⟨4⟩ 0 s).1 = .error .exhausted := by
    cbv
  have hfinal : (r.applyWithin (4997 + 1) ⟨4⟩ 0 s).2.memo[((⟨4⟩, 0) : Key)]? =
      some (.final (.node ⟨4⟩ 0 1 [.node ⟨5⟩ 0 1 [.node ⟨6⟩ 0 0 [], .node ⟨7⟩ 0 1 []]])) := by cbv
  have hprogress : (r.applyWithin (4997 + 1) ⟨4⟩ 0 s).2.memo[((⟨0⟩, 0) : Key)]? =
      some (.inProgress 0) := by cbv
  have hwhole : (r.apply ⟨0⟩ 0 {}).1 = .ok (.node ⟨0⟩ 0 2 [.node ⟨2⟩ 0 2 []]) := by cbv
  have hdepth : r.depthBound = 4997 + 1 + 1 + 1 := by cbv
  have hfirst : r.Begun .apply (4997 + 1 + 1 + 1) ⟨0⟩ 0 {} := hdepth ▸ Begun.first 0 .start rfl
  have hq :=
    Begun.fresh rfl hfirst (not_eligible Std.HashMap.getElem?_empty) Std.HashMap.getElem?_empty
  have hqz := Begun.choice rfl hq ⟨_, rfl, rfl⟩
  have hnone : ∀ y : RuleId, y ≠ ⟨0⟩ → ((Session.counted {}).enter ⟨0⟩ 0).memo[((y, 0) : Key)]? =
      none := by
    intro y hy
    exact (setEntry_other (fun h => hy (congrArg Prod.fst h)) _).trans Std.HashMap.getElem?_empty
  have hbody :=
    Begun.fresh rfl hqz (not_eligible Std.HashMap.getElem?_empty) (hnone ⟨1⟩ (by decide))
  have hbegun : r.Begun .apply (4997 + 1) ⟨4⟩ 0 s := Begun.sequence rfl hbody ⟨_, rfl, rfl⟩
  have hopens : s.Opens ⟨4⟩ 0 s.counted :=
    .unknown (not_eligible Std.HashMap.getElem?_empty)
    ((setEntry_other (by decide) _).trans (hnone ⟨4⟩ (by decide)))
  have hcall : Call.Begun r ⟨.apply, 4997 + 1, ⟨4⟩, 0, s⟩ := hbegun
  have hseed := (Call.halts_iff hcall.not_exhausted).mp hhalts
  exact ⟨hbegun, hopens, hseed, hfinal, hprogress, hwhole⟩

end Recognizer

end Packrat
