import Packrat.Proofs.Recognition.Termination
import Packrat.Proofs.Recognition.Step

/-! Recognitions that are cut short.

That a recognition comes to some point is seen from one that stops there, as if a bound was
met. `Follows w w' s Q` says of such a `w` that it goes the way of `w'` unless it is cut short,
and that `Q` holds in the end if `w'` goes on from there to an answer. This passes from one step
to what is made of several (`Follows.bind`), also where a stop is caught and passed on
(`Follows.outcome`): from the applications to the body that makes them
(`Ties.tracedBody`), and from the bodies to the application that evaluates them, once or in
rounds of growth (`TiesBodies.step`).

Here `Q` is that some frame belongs to another's head: it does from the point on where the
recognition is cut short, whatever else is done. -/
namespace Packrat
variable {α β : Type}

def Follows (w w' : Recognition α) (s : Session) (Q : α → Session → Prop) : Prop :=
  w s = w' s ∨ (w s).1 = .error .exhausted ∧ Ends w' s Q fun _ _ => True

namespace Follows
variable {s : Session} {Q : α → Session → Prop} {Q' : β → Session → Prop}

theorem refl (w : Recognition α) : Follows w w s Q := .inl rfl

section
variable {x x' : Recognition α} {P : α → Session → Prop} (h : Follows x x' s Q)
  (hends : Ends x' s P fun _ _ => True)
include h hends

theorem bind {f f' : α → Recognition β} (hf : ∀ a s', P a s' → Follows (f a) (f' a) s' Q')
    (hQ : ∀ a s', P a s' → Q a s' → Ends (f' a) s' Q' fun _ _ => True) :
    Follows (x >>= f) (x' >>= f') s Q' := by
  rcases h with heq | ⟨hstop, hends'⟩
  · rw [Follows, ends_bind, run_bind, run_bind, heq, Ends]
    obtain ⟨a, s', hrun, ha⟩ | ⟨e, s', hrun, _⟩ := hends.cases
    · rw [hrun]
      exact hf a s' ha
    · rw [hrun]
      exact .inl rfl
  · refine .inr ⟨?_, ?_⟩
    · rw [run_bind]
      rcases hx : x s with ⟨o, s'⟩
      rw [hx] at hstop
      cases hstop
      rfl
    · rw [ends_bind]
      exact (hends.and hends').mono (fun a s' h => hQ a s' h.1 h.2) fun _ _ h => h.1

/-- What goes on after a stop does so only to stop for the same reason. -/
theorem outcome {f f' : Except Stop α → Recognition β}
    (hf : ∀ a s', P a s' → Follows (f (.ok a)) (f' (.ok a)) s' Q')
    (hQ : ∀ a s', P a s' → Q a s' → Ends (f' (.ok a)) s' Q' fun _ _ => True)
    (hsame : ∀ e, f (.error e) = f' (.error e))
    (hstop : ∀ e s', Ends (f' (.error e)) s' (fun _ _ => False) fun e' _ => e' = e) :
    Follows (Recognizer.outcomeOf x >>= f) (Recognizer.outcomeOf x' >>= f') s Q' := by
  have hrun : ∀ (w : Recognition α) (g : Except Stop α → Recognition β),
      (Recognizer.outcomeOf w >>= g) s = g (w s).1 (w s).2 := fun _ _ => rfl
  rcases h with heq | ⟨hcut, hends'⟩
  · rw [Follows, ends_bind, ends_outcomeOf, hrun, hrun, heq, Ends]
    obtain ⟨a, s', hx, ha⟩ | ⟨e, s', hx, _⟩ := hends.cases
    · rw [hx]
      exact hf a s' ha
    · rw [hx]
      exact .inl (by rw [hsame])
  · refine .inr ⟨?_, ?_⟩
    · rw [hrun, hcut, hsame, (hstop _ _).stops]
    · rw [ends_bind, ends_outcomeOf]
      refine (hends.and hends').mono (fun a s' h => hQ a s' h.1 h.2) fun e s' _ => ?_
      exact (hstop e s').answers fun _ _ h => h.elim

end

@[simp] theorem get_iff {f f' : Session → Recognition β} :
    Follows (get >>= f) (get >>= f') s Q' ↔ Follows (f s) (f' s) s Q' := Iff.rfl

@[simp] theorem modify_iff (g : Session → Session) {f f' : PUnit → Recognition β} :
    Follows (modify g >>= f) (modify g >>= f') s Q' ↔ Follows (f ⟨⟩) (f' ⟨⟩) (g s) Q' := Iff.rfl

@[simp] theorem record_iff (e : Event) {f f' : Unit → Recognition β} :
    Follows (Recognizer.record e >>= f) (Recognizer.record e >>= f') s Q' ↔ Follows (f ()) (f' ())
      (s.record e) Q' :=
  Iff.rfl

@[simp] theorem note_iff (n : Note) {f f' : Unit → Recognition β} :
    Follows (Recognizer.note n >>= f) (Recognizer.note n >>= f') s Q' ↔
      Follows (f ()) (f' ()) (s.record (.note n)) Q' := Iff.rfl

/-- What is the same for both is done before. -/
theorem after {x : Recognition α} {P : α → Session → Prop} {f f' : α → Recognition β}
    (hends : Ends x s P fun _ _ => True) (hf : ∀ a s', P a s' → Follows (f a) (f' a) s' Q') :
    Follows (x >>= f) (x >>= f') s Q' :=
  bind (Q := fun _ _ => False) (.refl x) hends hf fun _ _ _ h => h.elim

end Follows

theorem Upholds.ends {I : Session → Prop} {E : Stop → Prop} {x : Recognition α} {Q : α → Prop}
    (h : Upholds I E x Q) {s : Session} (hs : I s) :
    Ends x s (fun a s' => Q a ∧ I s') fun _ _ => True :=
  (h s hs).answers fun _ _ h => h

/-- `x` goes the way of `x'` unless it is cut short, and `J` holds if `x'` then goes on to an
answer. In any case `x'` keeps both `I` and `J`. -/
structure Shadows (I J : Session → Prop) (x x' : Recognition α) (Q : α → Prop) : Prop where
  follows : ∀ s, I s → Follows x x' s fun _ s' => J s'
  before : Upholds I (fun _ => True) x' Q
  after : Upholds J (fun _ => True) x' Q

theorem Congruence.shadows (I J : Session → Prop) :
    Congruence (fun _ => True) fun x x' Q => Shadows I J x x' Q where
  pure h := ⟨fun _ _ => .refl _, .pure h, .pure h⟩
  throw h := ⟨fun _ _ => .refl _, .throw h, .throw h⟩
  bind h hf := by
    refine ⟨fun s hs => ?_, h.before.bind fun a ha => (hf a ha).before, h.after.bind
      fun a ha => (hf a ha).after⟩
    refine (h.follows s hs).bind (h.before.ends hs) ?_ ?_
    · exact fun a s' ha => (hf a ha.1).follows s' ha.2
    · exact fun a s' ha hJ => ((hf a ha.1).after s' hJ).answers fun _ _ h => h.2

theorem Scene.Ready.tie {c : Scene} {pos n : Nat} (h : c.Ready pos)
    (hn : n < (Scene.frameKeys c.trail).length) : (c.tie n).Ready pos := by
  refine ⟨h.1, fun number htied => ?_⟩
  rcases htied with htied | rfl
  · exact h.2 number htied
  · exact hn

namespace Recognizer
variable {r : Recognizer} {rec rec' cut eval : RuleId → Nat → Recognition Answer} {c : Scene}
  {s : Session} {x : RuleId} {pos n d : Nat} {id : HeadId}

/-- Applications that cost less than `d` go the way of others unless they are cut short, and where
these then go on to an answer, the frame of number `n` belongs to another's head. -/
def Ties (r : Recognizer) (n : Nat) (rec rec' : RuleId → Nat → Recognition Answer)
    (d : Nat) : Prop :=
  ∀ c y q s, Scene.Ready c q → n < (Scene.frameKeys c.trail).length → r.cost c q < d →
    Disciplined r c s → Follows (rec y q) (rec' y q) s fun _ s' => Disciplined r (c.tie n) s'

/-- The same of evaluations of bodies. -/
def TiesBodies (r : Recognizer) (n : Nat) (cut eval : RuleId → Nat → Recognition Answer)
    (d : Nat) : Prop :=
  ∀ c y q s, Scene.Ready c q → n < (Scene.frameKeys c.trail).length →
    (r.graph.contains y = true → r.cost c q < d) →
    Disciplined r c s → Follows (cut y q) (eval y q) s fun _ s' => Disciplined r (c.tie n) s'

theorem Ties.tracedBody (h : r.Ties n rec rec' d) (hrec : r.Settles rec' d) :
    r.TiesBodies n (tracedBody rec r) (tracedBody rec' r) d := by
  intro c x pos s hready hn hcost dis
  have hbody : Shadows (Disciplined r c) (Disciplined r (c.tie n)) (body rec r x pos)
      (body rec' r x pos) (r.Answers x pos) := by
    refine body_congr (.shadows _ _) rec' (fun y q hcalls => ?_) (fun _ _ => trivial)
      (fun _ => trivial) fun _ _ _ => trivial
    obtain ⟨hready', hlt⟩ := hcalls.fits hready hcost
    exact ⟨fun s => h c y q s hready' hn hlt,
      (hrec c y q hready' hlt).mono (fun _ h => h) fun _ _ => trivial,
      (hrec (c.tie n) y q (hready'.tie hn) hlt).mono (fun _ h => h) fun _ _ => trivial⟩
  rw [Recognizer.tracedBody, Recognizer.tracedBody]
  by_cases htrace : r.trace = true
  · rw [if_pos htrace, if_pos htrace]
    have hdisplay : Upholds (Disciplined r c) (fun _ => True) (orStop (r.graph.display x) x)
        fun _ => True :=
      orStop_upholds (fun _ _ => trivial) fun _ _ _ => trivial
    refine Follows.after (hdisplay.ends dis) fun text s₁ hdone => ?_
    have d₂ := (hdone.2.record (.opened (.apply text pos))).record
      (.note (.entered (String.ofList (r.buffer.preview previewLength pos))))
    rw [Follows.record_iff, Follows.note_iff]
    refine Follows.outcome (hbody.follows _ d₂) (hbody.before.ends d₂) (fun _ _ _ => .refl _)
      (fun a s' _ htie => ?_) (fun _ => rfl) fun e s' => ?_
    · exact (htie.record _).record _
    · cases e <;> rfl
  · rw [if_neg htrace, if_neg htrace]
    exact hbody.follows s dis

/-! ### Growth -/

theorem Growth.Fit.tie {growth : Growth} (h : growth.Fit r c x pos s) :
    growth.Fit r (c.tie n) x pos s :=
  ⟨h.matched, h.answers, h.committed⟩

section Growth
variable (hties : r.TiesBodies n cut eval d) (heval : r.Evaluates eval d) (hready : c.Ready pos)
  (hn : n < (Scene.frameKeys c.trail).length)
include hties heval hready hn

/-- Where a round is cut short, those after it find the frame tied. -/
theorem growRounds_follows (hcap : r.graph.size ≤ c.caps id)
    (hcost : r.graph.contains x = true → r.cost (c.push ⟨x, pos, some id⟩) pos < d) {m : Nat}
    {growth : Growth} (dis : Disciplined r (c.push ⟨x, pos, some id⟩) s)
    (hfit : growth.Fit r c x pos s) (hm : r.remaining pos < m + growth.best.length) :
    Follows (growRounds cut id x pos m growth) (growRounds eval id x pos m growth) s fun _ s' =>
      Disciplined r ((c.push ⟨x, pos, some id⟩).tie n) s' := by
  have hpush := hready.push x (some id)
  induction m generalizing growth s with
  | zero => exact .refl _
  | succ m ih =>
    have hround := (startRound_ends hcap (fun known => heval _ x pos hpush hcost) dis hfit).answers
      fun _ _ h => h
    rw [growRounds, growRounds, Follows.modify_iff]
    refine (hties _ x pos _ hpush hn hcost (dis.startRound hcap)).bind hround
      (fun a s₁ hdone => ?_) fun a s₁ hdone htie => ?_
    · obtain ⟨ha, d₁, hfit₁⟩ := hdone
      by_cases himproves : a.improvesOn growth.best = true
      · obtain ⟨d₂, hfit₂, hm₂⟩ := hfit₁.improve d₁ ha himproves hm
        rw [if_pos himproves, if_pos himproves, Follows.modify_iff, Follows.get_iff]
        exact ih d₂ hfit₂ hm₂
      · rw [if_neg himproves, if_neg himproves]
        exact .refl _
    · obtain ⟨ha, _, hfit₁⟩ := hdone
      by_cases himproves : a.improvesOn growth.best = true
      · obtain ⟨d₂, hfit₂, hm₂⟩ := hfit₁.tie.improve htie ha himproves hm
        have hrest :=
          growRounds_ends (c := c.tie n) hcap (fun known => heval _ x pos (hpush.tie hn) hcost)
          d₂ hfit₂ hm₂
        rw [if_pos himproves, ends_bind, ends_modify, ends_bind, ends_get]
        exact hrest.answers fun _ _ h => h.2
      · rw [if_neg himproves]
        exact htie

theorem grow_follows (hcost : r.graph.contains x = true →
      r.cost ((c.cap id r.graph.size).push ⟨x, pos, some id⟩) pos < d) {seed : Answer}
    (h : Growth.Start r eval c id x pos seed s) :
    Follows (grow cut r id x pos seed) (grow eval r id x pos seed) s fun _ s' => Disciplined r
      (c.tie n) s' := by
  have hlt : r.remaining pos < r.remaining pos + 1 + seed.length := by omega
  have hready' : (c.cap id r.graph.size).Ready pos := hready
  rw [grow, grow, Follows.get_iff, Follows.modify_iff]
  refine (growRounds_follows hties heval hready' hn (cap_self ..) hcost h.begun h.fit hlt).outcome
    (h.rounds.answers fun _ _ h => h) (fun _ _ _ => .refl _) (fun growth s₁ hdone htie => ?_)
    (fun _ => rfl) fun _ _ => rfl
  have hgrowing := h.left.tracked.growing_eq pos
  exact (endGrow_ends (c := c.tie n) (.ok growth) h.known hgrowing htie hdone.1.tie).answers
    fun _ _ h => h.2.1

end Growth

/-! ### Applications -/

section Fresh
variable (hties : r.TiesBodies n cut eval d) (heval : r.Evaluates eval d) (hready : c.Ready pos)
  (hn : n < (Scene.frameKeys c.trail).length) (hcost : r.cost c pos < d + 1)
include hties heval hready hn hcost

theorem leaveWith_follows {a : Answer} (dis : Disciplined r (c.push ⟨x, pos, none⟩) s)
    (ha : r.Answers x pos a) :
    Follows (leaveWith cut r x pos (.ok a)) (leaveWith eval r x pos (.ok a)) s fun _ s' =>
      Disciplined r (c.tie n) s' := by
  have hkey : (x, pos) ∉ Scene.keys c.trail := fun hk => dis.head_free (.inl hk)
  rw [leaveWith, leaveWith, Follows.get_iff, Follows.modify_iff]
  rcases htop : s.top with _ | ⟨i, _ | _⟩
  · exact .refl _
  · exact .refl _
  · dsimp only
    rw [Follows.modify_iff]
    by_cases hm : a.matched = true
    · rw [if_pos hm, if_pos hm]
      have hgrow :=
        grow_follows (c := c.know i (x, pos)) hties heval hready hn (cost_growth_lt hkey hcost)
        (leave_start heval hready hcost dis htop ha hm)
      refine hgrow.outcome .trivial (fun _ _ _ => .refl _) (fun b s₂ _ htie => ?_) (fun _ => rfl)
        fun _ _ => rfl
      have htie' : Disciplined r ((c.tie n).know i (x, pos)) s₂ := htie
      exact htie'.forget hkey
    · rw [if_neg hm, if_neg hm]
      exact .refl _

/-- Where the body of an application is cut short, all that is done after it finds the frame
tied. -/
theorem applyFresh_follows (dis : Disciplined r c s) (hfree : ¬ c.Reserved c.trail (x, pos))
    (hel : ¬ s.isEligible x pos = true) :
    Follows (applyFresh cut r x pos) (applyFresh eval r x pos) s fun _ s' => Disciplined r
      (c.tie n) s' := by
  have hlt := cost_frame_lt (fun hk => hfree (.inl hk)) hcost
  have hpush := hready.push x none
  have hentered := dis.enter hready hfree hel
  rw [applyFresh, applyFresh, Follows.modify_iff]
  refine (hties _ x pos _ hpush (Nat.lt_succ_of_lt hn) hlt hentered).outcome
    ((heval _ x pos hpush hlt).ends hentered)
    (fun a s₁ hdone => leaveWith_follows hties heval hready hn hcost hdone.2 hdone.1)
    (fun a s₁ hdone htie => ?_)
    (fun _ => rfl) (leaveWith_stops eval r x pos)
  exact (leaveWith_ends heval (hready.tie hn) hcost (.ok a) htie hdone.1).answers fun _ _ h => h.2.1

end Fresh

/-- Where the evaluation of a body is cut short, the application goes on with the frame tied. -/
theorem TiesBodies.step (hties : r.TiesBodies n cut eval d) (heval : r.Evaluates eval d) :
    r.Ties n (step cut r) (step eval r) (d + 1) := by
  intro c x pos s hready hn hcost dis
  have htick : Upholds (Disciplined r c) (fun _ => True) (tick r) fun _ => True :=
    tick_upholds (fun _ => trivial) fun s hs => hs.step
  rw [Recognizer.step, Recognizer.step]
  refine Follows.after (htick.ends dis) fun _ s₁ hticked => ?_
  have d₁ := hticked.2
  rw [Follows.get_iff]
  by_cases hel : s₁.isEligible x pos = true
  · obtain ⟨id, hgrow, hlower⟩ := spend_cost_lt d₁ hel
    have hlt := fun hx => Nat.lt_of_lt_of_le (hlower hx) (Nat.le_of_lt_succ hcost)
    have hspent := d₁.spend hel hgrow
    rw [if_pos hel, if_pos hel, Follows.modify_iff]
    refine (hties (c.spend r.graph id x) x pos _ hready hn hlt hspent).bind
      ((heval (c.spend r.graph id x) x pos hready hlt).ends hspent) (fun _ _ _ => .refl _)
      fun a s₂ hdone htie => ?_
    have hoffered := d₁.tracked.offered hel
    have htie' : Disciplined r ((c.tie n).spend r.graph id x) s₂ := htie
    exact htie'.unspend.remember_offered ⟨hoffered.clear, hoffered.no_frame,
      hoffered.not_settled⟩ hdone.1
  · rw [if_neg hel, if_neg hel, Follows.get_iff]
    cases hentry : s₁.remembered? x pos with
    | none => exact applyFresh_follows hties heval hready hn hcost d₁ (d₁.unknown_free hentry) hel
    | some e =>
      cases e with
      | final a => exact .refl _
      | inProgress number => exact .refl _
      | involved seed id =>
        have hfree := d₁.involved_free hentry
        dsimp only
        rw [Follows.get_iff]
        by_cases hunder : s₁.anchorUnderWay id = true
        · rw [if_pos hunder, if_pos hunder]
          exact .refl _
        · rw [if_neg hunder, if_neg hunder, Follows.get_iff]
          by_cases hgrows : s₁.growsAt pos id = true
          · rw [if_pos hgrows, if_pos hgrows]
            exact .refl _
          · rw [if_neg hgrows, if_neg hgrows, Follows.modify_iff]
            exact applyFresh_follows hties heval hready hn hcost (d₁.dropEntry hfree) hfree hel

end Recognizer

end Packrat
