import Packrat.Proofs.Recognition.Seeds

/-! The growth of a seed.

A seed grows in rounds, each of which evaluates the body of the anchor again, with whatever that
applies; and this may begin and end growths of other heads at the same position. `Rounds` says how
the rounds go, with no bound on them, and lists the answers that they accept. Each of these is
longer than the one before, and each is a match that stays within the buffer; so there are no more
of them than bytes are left (`Rounds.bounded`).

The bound of `growRounds` is therefore never met, and it goes as `Rounds` says. What is under way
around a growth is the same when it has ended as when it began, so the head that grew at the
position before grows on (`growth_monotone`). -/
namespace Packrat

/-- The same heads grow at the same positions. -/
structure Session.GrowsAs (s s' : Session) : Prop where
  growing : ∀ p : Nat, s'.growing[p]? = s.growing[p]?
  heads : ∀ (p : Nat) (id : HeadId), s.growing[p]? = some id →
    ∃ h h' : Head, s.heads[id]? = some h ∧ s'.heads[id]? = some h' ∧ h'.key = h.key ∧ h.pos = p

namespace Recognizer

/-- What has been reached when a round has brought a longer answer, which is remembered. -/
def Growth.accept (growth : Growth) (id : HeadId) (pos : Nat) (a : Answer) (s : Session) : Growth :=
  { best := a, committed := s.writtenEntries id pos, rounds := growth.rounds + 1 }

/-- Rounds of growth from a session on, the answers that they accept in order, and how they end. -/
inductive Rounds (eval : RuleId → Nat → Recognition Answer) (id : HeadId) (x : RuleId) (pos : Nat) :
    Growth → Session → List Answer → Except Stop Growth → Session → Prop where
  /-- The body stops. -/
  | stops {growth : Growth} {s s' : Session} {e : Stop} : eval x pos (s.startRound id x pos) =
      (.error e, s') →
    Rounds eval id x pos growth s [] (.error e) s'
  /-- The body answers by no longer match. -/
  | settles {growth : Growth} {s s' : Session} {a : Answer} : eval x pos (s.startRound id x pos) =
      (.ok a, s') →
    ¬ a.improvesOn growth.best = true → Rounds eval id x pos growth s [] (.ok growth) s'
  | accepts {growth : Growth} {s s' t : Session} {a : Answer} {accepted : List Answer}
      {o : Except Stop Growth} :
    eval x pos (s.startRound id x pos) = (.ok a, s') → a.improvesOn growth.best = true →
    Rounds eval id x pos (growth.accept id pos a (s'.setEntry x pos (.final a)))
      (s'.setEntry x pos (.final a)) accepted o t →
    Rounds eval id x pos growth s (a :: accepted) o t

/-- An application that is begun in the session `s₀` makes its rule the anchor of a head; and what
its body answers first, the seed, is a match and grows from the session `s` on. -/
inductive Grows (r : Recognizer) (depth : Nat) (x : RuleId) (pos : Nat) (s₀ : Session) :
    HeadId → Answer → Session → Prop where
  | intro {t u : Session} {id : HeadId} {seed : Answer} : r.Begun .apply (depth + 1) x pos s₀ →
    (tick r s₀).1 = .ok () → s₀.Opens x pos t →
    Task.run r depth .evaluate x pos (t.enter x pos) = (.ok seed, u) → u.top = some (id, true) →
    seed.matched = true → r.Grows depth x pos s₀ id seed (u.leave.remember x pos (.final seed))

variable {r : Recognizer} {eval : RuleId → Nat → Recognition Answer} {c : Scene}
  {s s₀ s' t : Session} {x : RuleId} {pos depth : Nat} {id : HeadId} {growth : Growth}
  {accepted : List Answer} {o : Except Stop Growth} {seed : Answer}

/-! ### Rounds -/

/-- Rounds go without a bound unless they meet it. -/
theorem growRounds_rounds (n : Nat) : Ends (growRounds eval id x pos n growth) s
    (fun grown t => ∃ accepted, Rounds eval id x pos growth s accepted (.ok grown) t)
    fun e t => e = .exhausted ∨ ∃ accepted, Rounds eval id x pos growth s accepted
      (.error e) t := by
  induction n generalizing growth s with
  | zero => exact .inl rfl
  | succ n ih =>
    rw [growRounds, ends_bind, ends_modify, ends_bind]
    refine .of_run (fun a s' hround => ?_) fun e s' hround => ?_
    · by_cases himproves : a.improvesOn growth.best = true
      · rw [if_pos himproves, ends_bind, ends_modify, ends_bind, ends_get]
        have hmore : ∀ {o t},
            (∃ accepted, Rounds eval id x pos
              (growth.accept id pos a (s'.setEntry x pos (.final a)))
              (s'.setEntry x pos (.final a)) accepted o t) →
            ∃ accepted, Rounds eval id x pos growth s accepted o t := by
          rintro o t ⟨accepted, hrest⟩
          exact ⟨a :: accepted, .accepts hround himproves hrest⟩
        exact ih.mono (fun _ _ h => hmore h) fun _ _ h => h.imp_right hmore
      · rw [if_neg himproves]
        exact ⟨[], .settles hround himproves⟩
    · exact .inr ⟨[], .stops hround⟩

/-- The answers of rounds get longer and longer. -/
theorem Rounds.longer (h : Rounds eval id x pos growth s accepted o t)
    (hm : growth.best.matched = true) :
    (growth.best :: accepted).IsChain fun a b => b.matched = true ∧ a.length < b.length := by
  induction h with
  | stops | settles => exact .singleton _
  | accepts _ himproves _ ih =>
    obtain ⟨ha, hlonger⟩ := Bool.and_eq_true_iff.mp himproves
    exact .cons_cons ⟨ha, by simpa [hm] using hlonger⟩ (ih ha)

/-- Rounds that come to an end come to what they have accepted last. -/
theorem Rounds.last (h : Rounds eval id x pos growth s accepted o t) :
    ∀ grown, o = .ok grown → grown.best = accepted.getLastD growth.best := by
  induction h with
  | stops => exact nofun
  | settles =>
    rintro _ ⟨⟩
    rfl
  | accepts _ _ _ ih =>
    intro grown ho
    rw [ih grown ho, List.getLastD_cons]
    rfl

/-- Each answer that is accepted leaves less of the buffer. -/
theorem Rounds.bounded (hcap : r.graph.size ≤ c.caps id)
    (hbody : ∀ known, Upholds (Disciplined r { c.push ⟨x, pos, some id⟩ with known })
        (r.Permitted x)
      (eval x pos) (r.Answers x pos))
    (h : Rounds eval id x pos growth s accepted o t)
    (d : Disciplined r (c.push ⟨x, pos, some id⟩) s) (hfit : growth.Fit r c x pos s) :
    growth.best.length + accepted.length ≤ r.remaining pos := by
  induction h with
  | stops | settles => exact hfit.answers.length_le hfit.matched
  | @accepts growth s s' t a accepted o hround himproves _ ih =>
    have hends := startRound_ends hcap hbody d hfit
    rw [Ends, hround] at hends
    obtain ⟨ha, d₁, hfit₁⟩ := hends
    obtain ⟨d₂, hfit₂, _⟩ := hfit₁.improve (n := r.remaining pos) d₁ ha himproves (by omega)
    have hlonger : growth.best.length < a.length := by
      simpa [hfit.matched] using (Bool.and_eq_true_iff.mp himproves).2
    have hrest : a.length + accepted.length ≤ r.remaining pos := ih d₂ hfit₂
    rw [List.length_cons]
    omega

/-! ### What the growth comes to -/

theorem Growth.Start.grows (h : Growth.Start r eval c id x pos seed s) :
    ∃ accepted o t, Rounds eval id x pos { best := seed } (s.startGrowth id pos) accepted o t ∧
      accepted.length ≤ r.remaining pos ∧
      grow eval r id x pos seed s = endGrow r id x pos s.growing[pos]? o t := by
  have hgrow : grow eval r id x pos seed s = endGrow r id x pos s.growing[pos]?
      (growRounds eval id x pos (r.remaining pos + 1) { best := seed } (s.startGrowth id pos)).1
      (growRounds eval id x pos (r.remaining pos + 1) { best := seed } (s.startGrowth id pos)).2 :=
    rfl
  have hbounded : ∀ {accepted o t}, Rounds eval id x pos { best := seed } (s.startGrowth id pos)
      accepted o t → accepted.length ≤ r.remaining pos := fun hrounds =>
    Nat.le_trans (Nat.le_add_left ..) (hrounds.bounded (cap_self ..) h.body h.begun h.fit)
  rw [hgrow]
  obtain ⟨grown, t, hrun, ⟨accepted, hrounds⟩, _⟩ |
      ⟨e, t, hrun, hexhausted | ⟨accepted, hrounds⟩, he, _⟩ :=
    ((growRounds_rounds (r.remaining pos + 1)).and h.rounds).cases
  · exact ⟨accepted, _, _, hrounds, hbounded hrounds, by rw [hrun]⟩
  · exact absurd hexhausted he.bounded
  · exact ⟨accepted, _, _, hrounds, hbounded hrounds, by rw [hrun]⟩

/-- A growth answers by the best that its rounds have come to. -/
theorem endGrow_answer {outer : Option HeadId} (hfound : r.graph.contains x = true)
    (o : Except Stop Growth) (t : Session) : (endGrow r id x pos outer o t).1 = o.map (·.best) := by
  obtain ⟨found, hfound⟩ := RuleGraph.rule?_of_contains hfound
  cases o with
  | error e => rfl
  | ok grown =>
    rw [endGrow, orStop_rule hfound]
    rfl

theorem Answers.contains (h : r.Answers x pos seed) (hm : seed.matched = true) :
    r.graph.contains x = true := by
  cases h.derived hm with
  | intro hjust _ =>
    obtain ⟨found, hfound, _⟩ := hjust.body
    rw [show seed.step.rule = x from h.rule_eq] at hfound
    exact RuleGraph.contains_of_rule? hfound

/-- Where the same is under way, the same heads grow. -/
theorem growsAs_of_disciplined (d : Disciplined r c s) (d' : Disciplined r c s') :
    s.GrowsAs s' := by
  refine ⟨fun p => (d'.tracked.growing_eq p).trans (d.tracked.growing_eq p).symm,
    fun p outer houter => ?_⟩
  rw [d.tracked.growing_eq p] at houter
  obtain ⟨a, ha, hpos, hgrows⟩ := growingAt_eq_some houter
  obtain ⟨h, hs, hkey, _⟩ := d.tracked.growth a ha outer hgrows
  obtain ⟨h', hs', hkey', _⟩ := d'.tracked.growth a ha outer hgrows
  exact ⟨h, h', hs, hs', hkey'.trans hkey.symm, (congrArg Prod.snd hkey).trans hpos⟩

/-! ### The application around it -/

theorem ends_counted (htick : (tick r s).1 = .ok ()) {Q : Unit → Session → Prop}
    {E : Stop → Session → Prop} : Ends (tick r) s Q E ↔ Q () s.counted := by
  have hends := tick_ends r s
  rw [Ends] at hends ⊢
  rcases hrun : tick r s with ⟨o, s'⟩
  rw [hrun] at htick hends
  cases htick
  rw [show s' = s.counted from hends]

/-- An application that finds nothing that counts is made anew. -/
theorem ends_opened (htick : (tick r s).1 = .ok ()) (hopens : s.Opens x pos t)
    {Q : Answer → Session → Prop} {E : Stop → Session → Prop} :
    Ends (step eval r x pos) s Q E ↔ Ends (applyFresh eval r x pos) t Q E := by
  rw [step, ends_bind, ends_counted htick, ends_bind, ends_get]
  cases hopens with
  | unknown hel hentry =>
    have hel' : ¬ s.counted.isEligible x pos = true := hel
    have hentry' : s.counted.remembered? x pos = none := hentry
    rw [if_neg hel', ends_bind, ends_get, hentry']
  | outdated hel hentry hunder hgrows =>
    have hel' : ¬ s.counted.isEligible x pos = true := hel
    have hentry' : s.counted.remembered? x pos = _ := hentry
    have hunder' : ¬ s.counted.anchorUnderWay _ = true := Bool.eq_false_iff.mp hunder
    have hgrows' : ¬ s.counted.growsAt pos _ = true := Bool.eq_false_iff.mp hgrows
    rw [if_neg hel', ends_bind, ends_get, hentry']
    dsimp only
    rw [ends_bind, ends_get, if_neg hunder', ends_bind, ends_get, if_neg hgrows', ends_bind,
      ends_modify]

/-- The session in which it is made anew is as it has to be for its frame. -/
theorem disciplined_opened (dis : Disciplined r c s) (hopens : s.Opens x pos t) :
    Disciplined r c t ∧ ¬ c.Reserved c.trail (x, pos) ∧ ¬ t.isEligible x pos = true := by
  cases hopens with
  | unknown hel hentry => exact ⟨dis.step, dis.step.unknown_free hentry, hel⟩
  | outdated hel hentry =>
    have hfree := dis.step.involved_free hentry
    exact ⟨dis.step.dropEntry hfree, hfree, hel⟩

theorem Grows.start (h : r.Grows depth x pos s₀ id seed s) :
    ∃ c : Scene, (x, pos) ∉ Scene.keys c.trail ∧
      Growth.Start r (Task.run r depth .evaluate) (c.know id (x, pos)) id x pos seed s := by
  cases h with
  | @intro t u id seed hbegun htick hopens hbody htop hm =>
    obtain ⟨c, hready, hcost, dis⟩ := hbegun.disciplined
    obtain ⟨dis', hfree, hel⟩ := disciplined_opened dis hopens
    have hkey : (x, pos) ∉ Scene.keys c.trail := fun hk => hfree (.inl hk)
    have heval : r.Evaluates (Task.run r depth .evaluate) depth :=
      (applyWithin_settles r depth).tracedBody
    have hends :=
      heval _ x pos (hready.push x none) (cost_frame_lt hkey hcost) _ (dis'.enter hready hfree hel)
    rw [Ends, hbody] at hends
    exact ⟨c, hkey, leave_start heval hready hcost hends.2 htop hends.1 hm⟩

/-- The application answers as its seed grows, and its head is released. -/
theorem Grows.run (h : r.Grows depth x pos s₀ id seed s) : r.applyWithin (depth + 1) x pos s₀ =
    ((grow (Task.run r depth .evaluate) r id x pos seed s).1,
      (grow (Task.run r depth .evaluate) r id x pos seed s).2.release id) := by
  cases h with
  | @intro t u id seed hbegun htick hopens hbody htop hm =>
    refine Ends.run ?_
    rw [show r.applyWithin (depth + 1) x pos = step (Task.run r depth .evaluate) r x pos from rfl,
      ends_opened htick hopens, applyFresh, ends_bind, ends_modify, ends_bind, ends_outcomeOf,
      Ends, hbody]
    dsimp only
    rw [leaveWith, ends_bind, ends_get, ends_bind, ends_modify, htop]
    dsimp only
    rw [ends_bind, ends_modify, if_pos hm, ends_bind, ends_outcomeOf, Ends]
    rcases grow (Task.run r depth .evaluate) r id x pos seed
      (u.leave.remember x pos (.final seed)) with ⟨o, s'⟩
    cases o <;> rfl

/-- When a seed grows in a run, each answer that a round accepts is a longer match than the one
before, and there are at most as many as bytes are left; a growth that comes to an end answers by
the last of them, or by the seed, and this is what is remembered of the anchor for good; and
whichever way it ends, the heads that grew before grow again. -/
theorem growth_monotone (h : r.Grows depth x pos s₀ id seed s) :
    ∃ accepted o t,
      Rounds (Task.run r depth .evaluate) id x pos { best := seed }
        (s.startGrowth id pos) accepted o t ∧
      grow (Task.run r depth .evaluate) r id x pos seed s = endGrow r id x pos s.growing[pos]? o t ∧
      (seed :: accepted).IsChain (fun a b => b.matched = true ∧ a.length < b.length) ∧
      accepted.length ≤ r.buffer.size - pos ∧
      ∃ after, grow (Task.run r depth .evaluate) r id x pos seed s =
        (o.map fun _ => accepted.getLastD seed, after) ∧
        r.applyWithin (depth + 1) x pos s₀ = (o.map fun _ => accepted.getLastD seed,
        after.release id) ∧
        (∀ grown, o = .ok grown → after.memo[(x, pos)]? = some (.final (accepted.getLastD seed))) ∧
        s.GrowsAs after ∧ s.GrowsAs (after.release id) := by
  obtain ⟨c, hkey, hstart⟩ := h.start
  obtain ⟨accepted, o, t, hrounds, hbounded, hgrow⟩ := hstart.grows
  have hanswer : (grow (Task.run r depth .evaluate) r id x pos seed s).1 = o.map fun _ =>
      accepted.getLastD seed := by
    rw [hgrow, endGrow_answer (hstart.answers.contains hstart.matched)]
    cases o with
    | error e => rfl
    | ok grown => exact congrArg Except.ok (hrounds.last grown rfl)
  have hends := grow_ends hstart
  have d : Disciplined r (c.know id (x, pos))
      (grow (Task.run r depth .evaluate) r id x pos seed s).2 :=
    ends_session.mp (hends.mono (fun _ _ h => h.2.1) fun _ _ h => h.2.1)
  refine ⟨accepted, o, t, hrounds, hgrow, hrounds.longer hstart.matched, hbounded, _,
    Prod.ext hanswer rfl, ?_, ?_, ?_, ?_⟩
  · rw [h.run, hanswer]
  · rintro grown rfl
    exact (hends.of_ok hanswer).2.2
  · exact growsAs_of_disciplined hstart.left d
  · exact growsAs_of_disciplined (hstart.left.mono (fun _ => Nat.le_refl _) fun _ _ => .inl)
      (d.forget hkey)

set_option maxRecDepth 20000 in
/-- A list of one letter grows into one of two. -/
theorem growth_monotone_list :
    let g : RuleGraph := ⟨#[⟨"list", .choice [⟨1⟩, ⟨2⟩], {}⟩, ⟨"more", .sequence [⟨0⟩, ⟨2⟩], {}⟩,
      ⟨"x", .literal "x", {}⟩]⟩
    let r : Recognizer := { graph := g, buffer := .ofList ['x', 'x'] }
    let seed : Answer := .node ⟨0⟩ 0 1 [.node ⟨2⟩ 0 1 []]
    let s := (Task.run r 499 .evaluate ⟨0⟩ 0 ((Session.counted {}).enter ⟨0⟩ 0)).2.leave.remember
      ⟨0⟩ 0 (.final seed)
    r.Grows 499 ⟨0⟩ 0 {} 0 seed s ∧ ∃ accepted, accepted.length ≤ 2 ∧
      (seed :: accepted).IsChain (fun a b => b.matched = true ∧ a.length < b.length) ∧
      accepted.getLastD seed = .node ⟨0⟩ 0 2 [.node ⟨1⟩ 0 2 [seed, .node ⟨2⟩ 1 1 []]] := by
  intro g r seed s
  have hdepth : r.depthBound = 499 + 1 := by cbv
  have hbegun : r.Begun .apply (499 + 1) ⟨0⟩ 0 {} := hdepth ▸ Begun.first 0 .start rfl
  have hopens : ({} : Session).Opens ⟨0⟩ 0 (Session.counted {}) :=
    .unknown (not_eligible Std.HashMap.getElem?_empty) Std.HashMap.getElem?_empty
  have hseed : (Task.run r 499 .evaluate ⟨0⟩ 0 ((Session.counted {}).enter ⟨0⟩ 0)).1 =
      .ok seed := by cbv
  have htop : (Task.run r 499 .evaluate ⟨0⟩ 0 ((Session.counted {}).enter ⟨0⟩ 0)).2.top =
      some (0, true) := by cbv
  have hgrows : r.Grows 499 ⟨0⟩ 0 {} 0 seed s :=
    .intro hbegun rfl hopens (Prod.ext hseed rfl) htop rfl
  have hwhole : (r.applyWithin (499 + 1) ⟨0⟩ 0 {}).1 =
      .ok (.node ⟨0⟩ 0 2 [.node ⟨1⟩ 0 2 [seed, .node ⟨2⟩ 1 1 []]]) := by cbv
  obtain ⟨accepted, o, t, _, _, hlonger, hbounded, after, _, hrun, _⟩ := growth_monotone hgrows
  rw [hrun] at hwhole
  cases o with
  | error e => cases hwhole
  | ok grown => exact ⟨hgrows, accepted, hbounded, hlonger, Except.ok.inj hwhole⟩

end Recognizer

end Packrat
