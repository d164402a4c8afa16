import Packrat.Proofs.Recognition.Discipline
import Packrat.Proofs.Recognition.Bodies
import Packrat.Proofs.Recognition.Cost
import Packrat.Proofs.Rules.Closed

/-! Every application comes to an end, with an answer as an application may give.

The bounds on depth and loops are never met, whatever cycles the rules form and whatever
was applied before: an application costs less than the one for whose body it is made
(`Recognizer.cost`), a round of growth that is not the last one takes the match further,
and each step leaves a disciplined session behind (`applyWithin_settles`). So applying a
rule ends with an answer or an error (`apply_ends`). -/
namespace Packrat

namespace Recognizer

/-- Why an application may stop: never for a bound on depth or loops, for a number that belongs
to no rule only where there is one, and for misuse only where there is a placeholder. -/
structure Permitted (r : Recognizer) (x : RuleId) (e : Stop) : Prop where
  bounded : e ≠ .exhausted
  closed : r.graph.contains x = true → r.graph.ClosedFrom x → ∀ i, e ≠ .dangling i
  plain : r.graph.contains x = true → r.graph.ClosedFrom x → r.graph.PlainFrom x →
    ∀ e', e = .error e' → e'.isMisuse = false

/-- Applications that cost less than `d` keep a session disciplined, and end as they may. -/
def Settles (r : Recognizer) (rec : RuleId → Nat → Recognition Answer) (d : Nat) : Prop :=
  ∀ c y q, Scene.Ready c q → r.cost c q < d →
    Upholds (Disciplined r c) (r.Permitted y) (rec y q) (r.Answers y q)

/-- Evaluations of bodies that cost less than `d` keep a session disciplined, and end as they
may. -/
def Evaluates (r : Recognizer) (eval : RuleId → Nat → Recognition Answer) (d : Nat) : Prop :=
  ∀ c y q, Scene.Ready c q → (r.graph.contains y = true → r.cost c q < d) →
    Upholds (Disciplined r c) (r.Permitted y) (eval y q) (r.Answers y q)

section
variable {r : Recognizer} {rec eval : RuleId → Nat → Recognition Answer} {c : Scene} {s : Session}
  {x : RuleId} {pos : Nat} {id : HeadId}

theorem Permitted.error {e : EvalError} (h : e.isMisuse = false) : r.Permitted x (.error e) := by
  refine ⟨nofun, fun _ _ => nofun, fun _ _ _ e' he => ?_⟩
  cases he
  exact h

theorem Permitted.unknown (h : ¬ r.graph.contains x = true) (e : EvalError) :
    r.Permitted x (.error e) :=
  ⟨nofun, fun hx => absurd hx h, fun hx => absurd hx h⟩

theorem Permitted.reference {found : Rule} (hfound : r.graph.rule? x = some found)
    (hreference : found.body.isReference = true) (e : EvalError) : r.Permitted x (.error e) := by
  refine ⟨nofun, fun _ _ => nofun, fun _ _ hplain => ?_⟩
  cases hreference.symm.trans (hplain x found .refl hfound)

theorem Permitted.refers {y : RuleId} {e : Stop} (h : r.Permitted y e) (hxy : r.graph.Refers x y) :
    r.Permitted x e := by
  refine ⟨h.bounded, fun _ hclosed => ?_, fun _ hclosed hplain => ?_⟩
  · exact h.closed (hclosed x y .refl hxy) (hclosed.refers hxy)
  · exact h.plain (hclosed x y .refl hxy) (hclosed.refers hxy) (hplain.refers hxy)

theorem Permitted.dangling (h : r.graph.rule? x = none) (i : RuleId) :
    r.Permitted x (.dangling i) := by
  refine ⟨nofun, fun hx => ?_, fun _ _ _ => nofun⟩
  obtain ⟨found, hfound⟩ := RuleGraph.rule?_of_contains hx
  cases h.symm.trans hfound

theorem Permitted.display {e : RuleError} (h : r.graph.display x = .error e) (i : RuleId) :
    r.Permitted x (.dangling i) := by
  refine ⟨nofun, fun hx hclosed => ?_, fun _ _ _ => nofun⟩
  obtain ⟨found, hfound⟩ := RuleGraph.rule?_of_contains hx
  obtain ⟨text, htext⟩ :=
    RuleGraph.display_ok hfound fun y hy => hclosed x y .refl ⟨found, hfound, hy⟩
  cases h.symm.trans htext

/-- The evaluation of a body keeps what the applications keep that it may make, and ends as it
may. -/
theorem tracedBody_settles {I : Session → Prop} (hI : ∀ s e, I s → I (s.record e))
    (hrec : ∀ y q, r.Calls (x, pos) (y, q) → Upholds I (r.Permitted y) (rec y q) (r.Answers y q)) :
    Upholds I (r.Permitted x) (tracedBody rec r x pos) (r.Answers x pos) := by
  refine tracedBody_upholds hI (body_upholds (fun y q hcalls => ?_) Permitted.dangling
    (fun _ => Permitted.error rfl) fun _ hfound hreference =>
      Permitted.reference hfound hreference _)
    fun e he => Permitted.display he
  exact (hrec y q hcalls).mono (fun _ h => h) fun e he => he.refers hcalls.refers

/-- An application that a body may make costs no more than the evaluation of the body. -/
theorem Calls.fits {y : RuleId} {q d : Nat} (hcalls : r.Calls (x, pos) (y, q))
    (hready : c.Ready pos) (hcost : r.graph.contains x = true → r.cost c pos < d) :
    c.Ready q ∧ r.cost c q < d := by
  obtain ⟨found, hfound, _⟩ := hcalls.refers
  exact ⟨hready.mono hcalls.1.le,
    Nat.lt_of_le_of_lt (cost_ahead hready.1 hcalls.1) (hcost (RuleGraph.contains_of_rule? hfound))⟩

theorem Settles.tracedBody {d : Nat} (hrec : r.Settles rec d) :
    r.Evaluates (tracedBody rec r) d := by
  intro c x pos hready hcost
  refine tracedBody_settles (fun s e hs => hs.record e) fun y q hcalls => ?_
  obtain ⟨hready', hcost'⟩ := hcalls.fits hready hcost
  exact hrec c y q hready' hcost'

/-! ### Growth -/

/-- What keeps a session disciplined, whatever is to be kept in mind, keeps all that is known. -/
theorem knows_of_upholds {α : Type} {E : Stop → Prop} {w : Recognition α} {Q : α → Prop}
    (h : ∀ known, Upholds (Disciplined r { c with known }) E w Q) (d : Disciplined r c s) :
    Ends w s (fun a s' => Q a ∧ Disciplined r c s' ∧ ∀ i k, s.Knows i k → s'.Knows i k)
      fun e s' => E e ∧ Disciplined r c s' := by
  have hall : Disciplined r { c with known := s.Knows } s :=
    ⟨{ d.tracked with known := fun _ _ hk => hk }, d.remembered.rescope rfl rfl⟩
  have hback : ∀ s', Disciplined r { c with known := s.Knows } s' → Disciplined r c s' :=
    fun s' d' => d'.mono (fun _ => Nat.le_refl _) d.tracked.known
  exact (h _ s hall).mono (fun a s' h => ⟨h.1, hback s' h.2, h.2.tracked.known⟩)
    fun e s' h => ⟨h.1, hback s' h.2⟩

/-- What may be remembered at a position once a growth below all that is under way has ended. -/
structure Growth.Fit (r : Recognizer) (c : Scene) (x : RuleId) (pos : Nat) (s : Session)
    (growth : Growth) : Prop where
  matched : growth.best.matched = true
  answers : r.Answers x pos growth.best
  committed : ∀ y e, (y, e) ∈ growth.committed →
    ¬ c.Reserved c.trail (y, pos) ∧ e.Answered ∧ e.Sound r s (y, pos)

theorem Growth.Fit.mono {s' : Session} {growth : Growth} (h : growth.Fit r c x pos s)
    (hknows : ∀ i k, s.Knows i k → s'.Knows i k) : growth.Fit r c x pos s' := by
  refine ⟨h.matched, h.answers, fun y e hy => ?_⟩
  obtain ⟨hfree, he, hsound⟩ := h.committed y e hy
  exact ⟨hfree, he, hsound.mono hknows⟩

/-- A round that has brought a longer answer leaves less of the buffer for those to come. -/
theorem Growth.Fit.improve {growth : Growth} {a : Answer} {n : Nat} (hfit : growth.Fit r c x pos s)
    (d : Disciplined r (c.push ⟨x, pos, some id⟩) s) (ha : r.Answers x pos a)
    (himproves : a.improvesOn growth.best = true)
    (hn : r.remaining pos < n + 1 + growth.best.length) :
    Disciplined r (c.push ⟨x, pos, some id⟩) (s.setEntry x pos (.final a)) ∧
      Growth.Fit r c x pos (s.setEntry x pos (.final a))
        { best := a
          committed := (s.setEntry x pos (.final a)).writtenEntries id pos
          rounds := growth.rounds + 1 } ∧
      r.remaining pos < n + a.length := by
  obtain ⟨hm, hlonger⟩ := Bool.and_eq_true_iff.mp himproves
  have d' := d.improve ha
  refine ⟨d', ⟨hm, ha, fun y e hy => d'.writtenEntries hy⟩, ?_⟩
  have : growth.best.length < a.length := by simpa [hfit.matched] using hlonger
  omega

/-- Before a round and after its body, all is as it has to be. -/
theorem startRound_ends (hcap : r.graph.size ≤ c.caps id)
    (hbody : ∀ known, Upholds (Disciplined r { c.push ⟨x, pos, some id⟩ with known })
        (r.Permitted x)
      (eval x pos) (r.Answers x pos))
    {growth : Growth} (d : Disciplined r (c.push ⟨x, pos, some id⟩) s)
    (hfit : growth.Fit r c x pos s) : Ends (eval x pos) (s.startRound id x pos)
      (fun a s' => r.Answers x pos a ∧ Disciplined r (c.push ⟨x, pos, some id⟩) s' ∧
      growth.Fit r c x pos s')
      fun e s' => r.Permitted x e ∧ Disciplined r (c.push ⟨x, pos, some id⟩) s' := by
  have hknows : ∀ i k, s.Knows i k → (s.startRound id x pos).Knows i k :=
    fun _ _ hk => knows_modifyHead (by exact fun _ => rfl) (knows_discard hk)
  exact (knows_of_upholds hbody (d.startRound hcap)).mono
    (fun a s' h => ⟨h.1, h.2.1, hfit.mono fun i k hk => h.2.2 i k (hknows i k hk)⟩) fun _ _ h => h

/-- Rounds of growth end: each but the last one leaves less of the buffer. -/
theorem growRounds_ends (hcap : r.graph.size ≤ c.caps id)
    (hbody : ∀ known, Upholds (Disciplined r { c.push ⟨x, pos, some id⟩ with known })
        (r.Permitted x)
      (eval x pos) (r.Answers x pos))
    {n : Nat} {growth : Growth} (d : Disciplined r (c.push ⟨x, pos, some id⟩) s)
    (hfit : growth.Fit r c x pos s) (hn : r.remaining pos < n + growth.best.length) :
    Ends (growRounds eval id x pos n growth) s
      (fun growth s' => growth.Fit r c x pos s' ∧ Disciplined r (c.push ⟨x, pos, some id⟩) s')
      fun e s' => r.Permitted x e ∧ Disciplined r (c.push ⟨x, pos, some id⟩) s' := by
  induction n generalizing growth s with
  | zero =>
    have := hfit.answers.length_le hfit.matched
    omega
  | succ n ih =>
    rw [growRounds, ends_bind, ends_modify, ends_bind]
    refine (startRound_ends hcap hbody d hfit).mono (fun a s₁ ⟨ha, d₁, hfit₁⟩ => ?_) fun _ _ h => h
    by_cases himproves : a.improvesOn growth.best = true
    · obtain ⟨d₂, hfit₂, hn₂⟩ := hfit₁.improve d₁ ha himproves hn
      rw [if_pos himproves, ends_bind, ends_modify, ends_bind, ends_get]
      exact ih d₂ hfit₂ hn₂
    · rw [if_neg himproves]
      exact ⟨hfit₁, d₁⟩

theorem remember_committed {committed : List (RuleId × Entry)} (d : Disciplined r c s)
    (hfit : ∀ y e, (y, e) ∈ committed →
      ¬ c.Reserved c.trail (y, pos) ∧ e.Answered ∧ e.Sound r s (y, pos)) :
    Disciplined r c (committed.foldl (fun s (y, e) => s.remember y pos e) s) := by
  induction committed generalizing s with
  | nil => exact d
  | cons entry rest ih =>
    obtain ⟨y, e⟩ := entry
    obtain ⟨hfree, he, hsound⟩ := hfit y e (List.mem_cons_self ..)
    refine ih (d.remember_of_free hfree he hsound) fun z e' hz => ?_
    obtain ⟨hfree, he, hsound⟩ := hfit z e' (List.mem_cons_of_mem _ hz)
    exact ⟨hfree, he, hsound.mono fun _ _ hk => knows_remember hk⟩

/-- A growth is over, and the session is as it is without it, but for what has been answered
last. -/
theorem endGrow_ends (outcome : Except Stop Growth) {outer : Option HeadId}
    (hknown : c.known id (x, pos)) (houter : outer = growingAt c.trail pos)
    (d : Disciplined r ((c.cap id r.graph.size).push ⟨x, pos, some id⟩) s)
    (houtcome : match outcome with
      | .ok growth => growth.Fit r (c.cap id r.graph.size) x pos s
      | .error e => r.Permitted x e) :
    Ends (endGrow r id x pos outer outcome) s
      (fun a s' => r.Answers x pos a ∧ Disciplined r c s' ∧ s'.memo[(x, pos)]? = some (.final a))
      fun e s' => r.Permitted x e ∧ Disciplined r c s' ∧
        ∃ a, s'.memo[(x, pos)]? = some (.final a) := by
  have hfree : ¬ c.Reserved c.trail (x, pos) := d.head_free
  have hended : Disciplined r c (s.endGrowth id x pos outer) := by
    have d' : Disciplined r (c.cap id r.graph.size) (s.endGrowth id x pos outer) :=
      d.stopGrowth houter
    exact ⟨d'.tracked.uncap (d'.tracked.known _ _ hknown) (fun hk => hfree (.inl hk))
      fun i hi => if_neg hi, d'.remembered.rescope rfl rfl⟩
  rw [endGrow, ends_bind, ends_modify, ends_bind, ends_result]
  cases outcome with
  | error e => exact ⟨houtcome, hended, d.discard.remembered.grown _ (List.mem_cons_self ..) rfl⟩
  | ok growth =>
    have hfit : growth.Fit r (c.cap id r.graph.size) x pos (s.endGrowth id x pos outer) :=
      houtcome.mono fun _ _ hk => knows_discard hk
    have d₂ := remember_committed hended hfit.committed
    have d₃ := d₂.remember_of_free (e := .final growth.best) hfree trivial hfit.answers
    dsimp only
    rw [ends_bind, ends_modify, ends_bind, ends_modify, ends_bind]
    have hname : Upholds (fun s' => Disciplined r c s' ∧
        s'.memo[(x, pos)]? = some (.final growth.best))
        (r.Permitted x) (orStop (r.graph.rule x) x) fun _ => True :=
      orStop_upholds (fun _ _ => trivial) fun e he =>
        Permitted.dangling (RuleGraph.rule?_of_rule_error he)
    refine (hname _ ⟨d₃, remember_self _⟩).mono (fun found s₂ h => ?_)
      fun e s₂ h => ⟨h.1, h.2.1, growth.best, h.2.2⟩
    exact ⟨hfit.answers, h.2.1.record _, h.2.2⟩

/-- An anchor has left its frame with a match, and all is as it has to be for the match to grow. -/
structure Growth.Start (r : Recognizer) (eval : RuleId → Nat → Recognition Answer) (c : Scene)
    (id : HeadId) (x : RuleId) (pos : Nat) (seed : Answer) (s : Session) : Prop where
  known : c.known id (x, pos)
  body : ∀ known,
    Upholds (Disciplined r { (c.cap id r.graph.size).push ⟨x, pos, some id⟩ with known })
    (r.Permitted x) (eval x pos) (r.Answers x pos)
  left : Disciplined r c s
  begun : Disciplined r ((c.cap id r.graph.size).push ⟨x, pos, some id⟩) (s.startGrowth id pos)
  answers : r.Answers x pos seed
  matched : seed.matched = true

theorem cap_self (c : Scene) (id : HeadId) (n : Nat) : n ≤ (c.cap id n).caps id :=
  Nat.le_of_eq (if_pos rfl).symm

theorem Growth.Start.fit {seed : Answer} (h : Growth.Start r eval c id x pos seed s) :
    Growth.Fit r (c.cap id r.graph.size) x pos (s.startGrowth id pos) { best := seed } :=
  ⟨h.matched, h.answers, fun _ _ hnone => (List.not_mem_nil hnone).elim⟩

/-- The rounds of a growth end. -/
theorem Growth.Start.rounds {seed : Answer} (h : Growth.Start r eval c id x pos seed s) :
    Ends (growRounds eval id x pos (r.remaining pos + 1) { best := seed }) (s.startGrowth id pos)
      (fun growth s' => growth.Fit r (c.cap id r.graph.size) x pos s' ∧
        Disciplined r ((c.cap id r.graph.size).push ⟨x, pos, some id⟩) s')
      fun e s' => r.Permitted x e ∧ Disciplined r
        ((c.cap id r.graph.size).push ⟨x, pos, some id⟩) s' := by
  refine growRounds_ends (cap_self ..) h.body h.begun h.fit ?_
  show r.remaining pos < r.remaining pos + 1 + seed.length
  omega

/-- A growth of a seed ends. -/
theorem grow_ends {seed : Answer} (h : Growth.Start r eval c id x pos seed s) :
    Ends (grow eval r id x pos seed) s
      (fun a s' => r.Answers x pos a ∧ Disciplined r c s' ∧ s'.memo[(x, pos)]? = some (.final a))
      fun e s' => r.Permitted x e ∧ Disciplined r c s' ∧
        ∃ a, s'.memo[(x, pos)]? = some (.final a) := by
  have hgrowing := h.left.tracked.growing_eq pos
  rw [grow, ends_bind, ends_get, ends_bind, ends_modify, ends_bind, ends_outcomeOf]
  refine h.rounds.mono (fun growth s₁ ⟨hfit, d₁⟩ => ?_) fun e s₁ ⟨he, d₁⟩ => ?_
  · exact endGrow_ends (.ok growth) h.known hgrowing d₁ hfit
  · exact endGrow_ends (.error e) h.known hgrowing d₁ he

/-! ### Applications -/

theorem tick_upholds {E : Stop → Prop} {I : Session → Prop}
    (herror : ∀ limit, E (.error (.stepLimit limit)))
    (hstep : ∀ s, I s → I { s with steps := s.steps + 1 }) :
    Upholds I E (tick r) fun _ => True := by
  intro s hs
  rw [tick, ends_bind, ends_modify]
  split
  · rw [ends_bind, ends_get]
    split
    · exact ⟨herror _, hstep s hs⟩
    · exact ⟨trivial, hstep s hs⟩
  · exact ⟨trivial, hstep s hs⟩

section Fresh
variable {d : Nat} (heval : r.Evaluates eval d) (hready : c.Ready pos)
  (hcost : r.cost c pos < d + 1)
include heval hready hcost

/-- An anchor that has matched may grow. -/
theorem leave_start {a : Answer} (d : Disciplined r (c.push ⟨x, pos, none⟩) s)
    (htop : s.top = some (id, true)) (ha : r.Answers x pos a) (hm : a.matched = true) :
    Growth.Start r eval (c.know id (x, pos)) id x pos a (s.leave.remember x pos (.final a)) := by
  have hkey : (x, pos) ∉ Scene.keys c.trail := fun hk => d.head_free (.inl hk)
  have d' := d.know_anchor htop
  exact ⟨.inr ⟨rfl, rfl⟩, fun known => heval _ x pos (hready.push x (some id))
    (cost_growth_lt hkey hcost),
    d'.finish (e := .final a) ha trivial, d'.startGrowth htop ha, ha, hm⟩

/-- What an application comes to that has left its frame. -/
theorem leaveWith_ends (outcome : Except Stop Answer) (d : Disciplined r (c.push ⟨x, pos, none⟩) s)
    (houtcome : match outcome with
      | .ok a => r.Answers x pos a
      | .error e => r.Permitted x e) :
    Ends (leaveWith eval r x pos outcome) s
      (fun a s' => r.Answers x pos a ∧ Disciplined r c s' ∧ s'.Leaves x pos a)
      fun e s' => r.Permitted x e ∧ Disciplined r c s' ∧ s'.LeavesFailed x pos := by
  have hkey : (x, pos) ∉ Scene.keys c.trail := fun hk => d.head_free (.inl hk)
  rw [leaveWith, ends_bind, ends_get, ends_bind, ends_modify]
  cases outcome with
  | error e =>
    have hforgotten : (s.leave.dropEntry x pos).memo[(x, pos)]? = none :=
      Std.HashMap.getElem?_erase_self
    dsimp only
    rw [ends_bind, ends_modify]
    rcases htop : s.top with _ | ⟨i, _ | _⟩
    · exact ⟨houtcome, d.fail, .inl hforgotten⟩
    · exact ⟨houtcome, d.fail, .inl hforgotten⟩
    · obtain ⟨h, hs, _, _, hanchor⟩ := d.tracked.of_top htop
      have hknows : s.Knows i (x, pos) := hanchor rfl ▸ d.tracked.knows hs
      exact ⟨houtcome, d.fail.release hknows hkey, .inl hforgotten⟩
  | ok a =>
    rcases htop : s.top with _ | ⟨i, _ | _⟩
    · exact ⟨houtcome, d.finish (e := .final a) houtcome trivial, .inl (remember_self _)⟩
    · obtain ⟨h, hs, hhpos, _⟩ := d.tracked.of_top htop
      refine ⟨houtcome, d.finish (e := .involved a i) ⟨houtcome, h.rule, ?_⟩ trivial,
        .inr ⟨i, remember_self _, ?_⟩⟩
      · rw [← hhpos]
        exact d.tracked.knows hs
      · exact (anchorUnderWay_remember (s := s.leave) _).trans (d.tracked.anchor_below htop)
    · have d₂ := (d.know_anchor htop).finish (e := .final a) houtcome trivial
      dsimp only
      rw [ends_bind, ends_modify]
      by_cases hm : a.matched = true
      · rw [if_pos hm, ends_bind, ends_outcomeOf]
        exact (grow_ends (leave_start heval hready hcost d htop houtcome hm)).mono
          (fun b s₂ h => ⟨h.1, h.2.1.forget hkey, .inl h.2.2⟩) fun e s₂ h =>
            ⟨h.1, h.2.1.forget hkey, .inr h.2.2⟩
      · rw [if_neg hm]
        exact ⟨houtcome, d₂.forget hkey, .inl (remember_self _)⟩

/-- An application of which nothing is remembered settles. -/
theorem applyFresh_ends (dis : Disciplined r c s) (hfree : ¬ c.Reserved c.trail (x, pos))
    (hel : ¬ s.isEligible x pos = true) :
    Ends (applyFresh eval r x pos) s
      (fun a s' => r.Answers x pos a ∧ Disciplined r c s' ∧ s'.Leaves x pos a)
      fun e s' => r.Permitted x e ∧ Disciplined r c s' ∧ s'.LeavesFailed x pos := by
  have hbody := heval _ x pos (hready.push x none) (cost_frame_lt (fun hk => hfree (.inl hk)) hcost)
  rw [applyFresh, ends_bind, ends_modify, ends_bind, ends_outcomeOf]
  exact (hbody _ (dis.enter hready hfree hel)).mono
    (fun a s₁ ⟨ha, d₁⟩ => leaveWith_ends heval hready hcost (.ok a) d₁ ha)
    fun e s₁ ⟨he, d₁⟩ => leaveWith_ends heval hready hcost (.error e) d₁ he

end Fresh

/-- The body of a rule that is on offer costs less, for it is on offer no more. -/
theorem spend_cost_lt (dis : Disciplined r c s) (hel : s.isEligible x pos = true) :
    ∃ id, growingAt c.trail pos = some id ∧
      (r.graph.contains x = true → r.cost (c.spend r.graph id x) pos < r.cost c pos) := by
  obtain ⟨id, hd, hgrowing, hs, hmem⟩ := Tracked.eligible_head hel
  have hgrow : growingAt c.trail pos = some id := (dis.tracked.growing_eq pos).symm.trans hgrowing
  refine ⟨id, hgrow, fun hx => ?_⟩
  rw [Scene.spend, if_pos hx]
  refine cost_lt (room_spend_lt hgrow ?_)
  obtain ⟨hd', hs', _, _, _, hcap⟩ := dis.tracked.growing_head hgrowing
  cases hs.symm.trans hs'
  refine Nat.lt_of_lt_of_le (List.countP_pos_iff.mpr ⟨x, RuleGraph.mem_ids hx, ?_⟩) hcap
  exact List.contains_iff_mem.mpr hmem

/-- An application settles if evaluations of bodies do. -/
theorem Evaluates.step {d : Nat} (heval : r.Evaluates eval d) :
    r.Settles (step eval r) (d + 1) := by
  intro c x pos hready hcost
  refine .bind (tick_upholds (fun _ => Permitted.error rfl) fun s hs => hs.step) fun _ _ s dis => ?_
  rw [ends_bind, ends_get]
  by_cases hel : s.isEligible x pos = true
  · obtain ⟨id, hgrow, hlower⟩ := spend_cost_lt dis hel
    rw [if_pos hel, ends_bind, ends_modify, ends_bind]
    have hbody := heval (c.spend r.graph id x) x pos hready fun hx =>
      Nat.lt_of_lt_of_le (hlower hx) (Nat.le_of_lt_succ hcost)
    refine (hbody _ (dis.spend hel hgrow)).mono (fun a s₁ ⟨ha, d₁⟩ => ?_) fun e s₁ ⟨he, d₁⟩ =>
      ⟨he, d₁.unspend⟩
    exact ⟨ha, d₁.unspend.remember_offered (dis.tracked.offered hel) ha⟩
  · rw [if_neg hel, ends_bind, ends_get]
    cases hentry : s.remembered? x pos with
    | none =>
      have hfree := dis.unknown_free hentry
      exact (applyFresh_ends heval hready hcost dis hfree hel).mono (fun _ _ h => ⟨h.1, h.2.1⟩)
        fun _ _ h => ⟨h.1, h.2.1⟩
    | some e =>
      cases e with
      | final a => exact ⟨dis.remembered.sound (x, pos) _ hentry, dis⟩
      | inProgress number => exact ⟨.fail x pos, dis.reenter hready.1 hentry⟩
      | involved seed id =>
        have hseed := (dis.remembered.sound (x, pos) _ hentry).1
        have hfree := dis.involved_free hentry
        dsimp only
        rw [ends_bind, ends_get]
        by_cases hunder : s.anchorUnderWay id = true
        · rw [if_pos hunder]
          exact ⟨hseed, dis.involve hready.1 hentry hunder⟩
        · rw [if_neg hunder, ends_bind, ends_get]
          by_cases hgrows : s.growsAt pos id = true
          · rw [if_pos hgrows]
            exact ⟨hseed, dis⟩
          · rw [if_neg hgrows, ends_bind, ends_modify]
            exact (applyFresh_ends heval hready hcost (dis.dropEntry hfree) hfree hel).mono
              (fun _ _ h => ⟨h.1, h.2.1⟩) fun _ _ h => ⟨h.1, h.2.1⟩

end

theorem applyWithin_settles (r : Recognizer) (depth : Nat) :
    r.Settles (r.applyWithin depth) depth := by
  induction depth with
  | zero => exact fun _ _ _ _ h => absurd h (Nat.not_lt_zero _)
  | succ depth ih => exact ih.tracedBody.step

/-- Whatever is applied in a session in which nothing is under way settles, and leaves alone what
was answered for good. -/
theorem apply_upholds {settled : Key → Answer → Prop} (r : Recognizer) (x : RuleId) (pos : Nat) :
    Upholds (Disciplined r { settled }) (r.Permitted x) (r.apply x pos) (r.Answers x pos) := by
  rw [apply]
  by_cases hx : r.graph.contains x = true
  · rw [if_pos hx]
    exact applyWithin_settles r r.depthBound { settled } x pos (.start settled pos)
      (cost_start_lt pos)
  · rw [if_neg hx]
    exact .throw (Permitted.unknown hx _)

/-- The sessions that applications lead to, one after the other, whichever way each ends. -/
inductive Reachable (r : Recognizer) : Session → Prop where
  | start : r.Reachable {}
  | apply {s : Session} (x : RuleId) (pos : Nat) : r.Reachable s → r.Reachable (r.apply x pos s).2

theorem apply_disciplined {r : Recognizer} {s : Session} (x : RuleId) (pos : Nat)
    (hs : Disciplined r {} s) :
    Disciplined r {} (r.apply x pos s).2 := (apply_upholds r x pos).session hs

theorem Reachable.disciplined {r : Recognizer} {s : Session} (h : r.Reachable s) :
    Disciplined r {} s := by
  induction h with
  | start => exact .start r
  | apply x pos _ ih => exact apply_disciplined x pos ih

/-- Without numbers that belong to no rule, applying a rule ends with an answer or an error, for all
rules that form cycles and after whatever was applied before. -/
theorem apply_ends {r : Recognizer} {s : Session} (hs : r.Reachable s) {x : RuleId}
    (hclosed : r.graph.ClosedFrom x) (pos : Nat) :
    (∃ a, (r.apply x pos s).1 = .ok a) ∨ ∃ e, (r.apply x pos s).1 = .error (.error e) := by
  obtain ⟨a, s', hrun, _⟩ | ⟨e, s', hrun, hpermitted, _⟩ :=
    (apply_upholds r x pos s hs.disciplined).cases
  · exact .inl ⟨a, by rw [hrun]⟩
  · refine .inr ?_
    by_cases hx : r.graph.contains x = true
    · cases e with
      | error e => exact ⟨e, by rw [hrun]⟩
      | dangling i => exact absurd rfl (hpermitted.2 hx hclosed i)
      | exhausted => exact absurd rfl hpermitted.1
    · rw [apply, if_neg hx]
      exact ⟨_, rfl⟩

theorem apply_ends_in_cycle :
    let g : RuleGraph := ⟨#[⟨"list", .choice [⟨1⟩, ⟨2⟩], {}⟩, ⟨"more", .sequence [⟨0⟩, ⟨2⟩], {}⟩,
      ⟨"item", .literal "x", {}⟩]⟩
    let r : Recognizer := { graph := g, buffer := .ofString "xx" }
    let s := (r.apply ⟨1⟩ 0 {}).2
    r.Reachable s ∧ g.ClosedFrom ⟨0⟩ ∧
      ((∃ a, (r.apply ⟨0⟩ 0 s).1 = .ok a) ∨ ∃ e, (r.apply ⟨0⟩ 0 s).1 = .error (.error e)) := by
  intro g r s
  have hs : r.Reachable s := .apply ⟨1⟩ 0 .start
  have hclosed : g.Closed := by decide
  exact ⟨hs, hclosed.closedFrom ⟨0⟩, apply_ends hs (hclosed.closedFrom ⟨0⟩) 0⟩

end Recognizer

end Packrat
