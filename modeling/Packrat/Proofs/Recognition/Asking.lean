import Packrat.Proofs.Recognition.Moments

/-! What a recognition makes of the work that is done for it.

A body is evaluated by whatever applies rules, and an application by whatever evaluates bodies.
What comes of it depends on that work only as far as it is asked for: where the outcome is
different with other work, something was asked for that the two do differently, and it was
asked for in a session in which it may be (`Heeds`). As with `haltAt`, that work is asked for
is seen from the recognition stopping as soon as this work stops.

This is put together like the recognition itself: from one step to the next, over what is
caught and passed on, and so for a body (`tracedBody_keeps`). -/
namespace Packrat.Recognizer
variable {α β : Type}

/-- What applies rules, or evaluates their bodies. -/
abbrev Work := RuleId → Nat → Recognition Answer

/-- The work for a rule at an offset in a session is asked for. -/
def Asks (w : Work → Recognition α) (work : Work) (s : Session) (y : RuleId) (q : Nat)
    (t : Session) : Prop :=
  (w (haltAt work y q t) s).1 = .error .exhausted

/-- From the session `s` on, `w` ends with `Q` or stops with `E`, and is no different with other
work unless it asks for something good that is done differently. -/
structure Heeds (Good : RuleId → Nat → Session → Prop) (w : Work → Recognition α) (work : Work)
    (s : Session) (Q : α → Session → Prop) (E : Stop → Session → Prop) : Prop where
  ends : Ends (w work) s Q E
  asks : ∀ other : Work, w work s = w other s ∨
    ∃ y q t, Good y q t ∧ work y q t ≠ other y q t ∧ Asks w work s y q t
  stops : ∀ y q t, Asks w work s y q t → (work y q t).1 = .error .exhausted →
    (w work s).1 = .error .exhausted

theorem haltAt_ne {work : Work} {x y : RuleId} {pos q : Nat} {s t : Session}
    (h : work y q t ≠ haltAt work x pos s y q t) : y = x ∧ q = pos ∧ t = s := by
  by_contra hother
  exact h (by rw [haltAt, if_neg hother])

namespace Heeds
variable {Good : RuleId → Nat → Session → Prop} {w : Work → Recognition α} {work : Work}
  {s : Session} {Q P : α → Session → Prop} {E E' : Stop → Session → Prop} {R : β → Session → Prop}

theorem const {x : Recognition α} (h : Ends x s Q E) : Heeds Good (fun _ => x) work s Q E :=
  ⟨h, fun _ => .inl rfl, fun _ _ _ hasks _ => hasks⟩

theorem call {y : RuleId} {q : Nat} {Q : Answer → Session → Prop} (hgood : Good y q s)
    (h : Ends (work y q) s Q E) : Heeds Good (fun work => work y q) work s Q E := by
  refine ⟨h, fun other => ?_, fun y' q' t hasks hstop => ?_⟩
  · by_cases hsame : work y q s = other y q s
    · exact .inl hsame
    · exact .inr ⟨y, q, s, hgood, hsame, (ends_haltAt work).stops⟩
  · rw [Asks, haltAt] at hasks
    by_cases hhere : y = y' ∧ q = q' ∧ s = t
    · obtain ⟨rfl, rfl, rfl⟩ := hhere
      exact hstop
    · rw [if_neg hhere] at hasks
      exact hasks

/-- What is halted at something goes its way unless it asks for it. -/
theorem halted (h : Heeds Good w work s P E) (y : RuleId) (q : Nat) (t : Session) :
    w (haltAt work y q t) s = w work s ∨ Asks w work s y q t := by
  rcases h.asks (haltAt work y q t) with heq | ⟨y', q', t', _, hne, hasks⟩
  · exact .inl heq.symm
  · obtain ⟨rfl, rfl, rfl⟩ := haltAt_ne hne
    exact .inr hasks

theorem bind {f : Work → α → Recognition β} (h : Heeds Good w work s P E)
    (hf : ∀ a s', P a s' → Heeds Good (fun work => f work a) work s' R E) :
    Heeds Good (fun work => w work >>= f work) work s R E := by
  have hstop : ∀ y q t, Asks w work s y q t →
      Asks (fun work => w work >>= f work) work s y q t := by
    intro y q t hasks
    rw [Asks, run_bind]
    rw [Asks] at hasks
    rcases hx : w (haltAt work y q t) s with ⟨o, s'⟩
    rw [hx] at hasks
    cases hasks
    rfl
  refine ⟨?_, fun other => ?_, fun y q t hasks hexhausted => ?_⟩
  · rw [ends_bind]
    exact h.ends.mono (fun a s' ha => (hf a s' ha).ends) fun _ _ he => he
  · rcases h.asks other with heq | ⟨y, q, t, hgood, hne, hasks⟩
    · rw [run_bind, run_bind, ← heq]
      obtain ⟨a, s', hrun, ha⟩ | ⟨e, s', hrun, _⟩ := h.ends.cases
      · rw [hrun]
        rcases (hf a s' ha).asks other with heq' | ⟨y, q, t, hgood, hne, hasks⟩
        · exact .inl heq'
        · refine .inr ⟨y, q, t, hgood, hne, ?_⟩
          rcases h.halted y q t with hsame | hfirst
          · rw [Asks, run_bind, hsame, hrun]
            exact hasks
          · exact hstop y q t hfirst
      · rw [hrun]
        exact .inl rfl
    · exact .inr ⟨y, q, t, hgood, hne, hstop y q t hasks⟩
  · rcases h.halted y q t with hsame | hfirst
    · rw [Asks, run_bind, hsame] at hasks
      rw [run_bind]
      obtain ⟨a, s', hrun, ha⟩ | ⟨e, s', hrun, _⟩ := h.ends.cases
      · rw [hrun] at hasks ⊢
        exact (hf a s' ha).stops y q t hasks hexhausted
      · rw [hrun] at hasks ⊢
        exact hasks
    · have hfirst := h.stops y q t hfirst hexhausted
      rw [run_bind]
      rcases hx : w work s with ⟨o, s'⟩
      rw [hx] at hfirst
      cases hfirst
      rfl

/-- What is caught and passed on is asked for all the same. -/
theorem outcome {f : Work → Except Stop α → Recognition β} (h : Heeds Good w work s P E')
    (hok : ∀ a s', P a s' → Heeds Good (fun work => f work (.ok a)) work s' R E)
    (herror : ∀ e s', E' e s' → Heeds Good (fun work => f work (.error e)) work s' R E)
    (hstop : ∀ work s', (f work (.error .exhausted) s').1 = .error .exhausted) :
    Heeds Good (fun work => outcomeOf (w work) >>= f work) work s R E := by
  have hrun : ∀ (work : Work) s, (outcomeOf (w work) >>= f work) s = f work (w work s).1
      (w work s).2 := fun _ _ => rfl
  have hfirst : ∀ y q t, Asks w work s y q t →
      Asks (fun work => outcomeOf (w work) >>= f work) work s y q t := by
    intro y q t hasks
    rw [Asks, hrun, hasks]
    exact hstop _ _
  have hrest : Heeds Good (fun other => f other (w work s).1) work (w work s).2 R E := by
    obtain ⟨a, s', hrun, ha⟩ | ⟨e, s', hrun, he⟩ := h.ends.cases
    · rw [hrun]
      exact hok a s' ha
    · rw [hrun]
      exact herror e s' he
  refine ⟨hrest.ends, fun other => ?_, fun y q t hasks hexhausted => ?_⟩
  · rcases h.asks other with heq | ⟨y, q, t, hgood, hne, hasks⟩
    · rw [hrun, hrun, ← heq]
      rcases hrest.asks other with heq' | ⟨y, q, t, hgood, hne, hasks⟩
      · exact .inl heq'
      · refine .inr ⟨y, q, t, hgood, hne, ?_⟩
        rcases h.halted y q t with hsame | hasked
        · rw [Asks, hrun, hsame]
          exact hasks
        · exact hfirst y q t hasked
    · exact .inr ⟨y, q, t, hgood, hne, hfirst y q t hasks⟩
  · rw [hrun]
    rcases h.halted y q t with hsame | hasked
    · rw [Asks, hrun, hsame] at hasks
      exact hrest.stops y q t hasks hexhausted
    · rw [h.stops y q t hasked hexhausted]
      exact hstop _ _

/-- What is known of one work holds of another that is the same wherever this is asked for; and this
is asked only for what is good. -/
theorem transfer {other : Work} (h : Heeds Good w work s P E)
    (hother : ∀ work : Work, w other s = w work s ∨ ∃ y q t, other y q t ≠ work y q t ∧
      Asks w other s y q t)
    (hsame : ∀ y q t, Asks w other s y q t → work y q t = other y q t) :
    Ends (w other) s P E ∧ ((w other s).1 ≠ .error .exhausted → ∀ y q t, Asks w other s y q t →
      Good y q t) := by
  have heq : w other s = w work s := by
    rcases hother work with heq | ⟨y, q, t, hne, hasks⟩
    · exact heq
    · exact absurd (hsame y q t hasks).symm hne
  refine ⟨?_, fun hbound y q t hasks => ?_⟩
  · have hends := h.ends
    rw [Ends] at hends ⊢
    rw [heq]
    exact hends
  -- Halted there, the recognition stops, so the other work asks for something good as well: for
  -- just this, or for something that it does differently, which is not asked for.
  rcases h.asks (haltAt other y q t) with hend | ⟨y', q', t', hgood, hne, hasks'⟩
  · rw [Asks, ← hend, ← heq] at hasks
    exact absurd hasks hbound
  by_cases hhere : y' = y ∧ q' = q ∧ t' = t
  · obtain ⟨rfl, rfl, rfl⟩ := hhere
    exact hgood
  · rw [haltAt, if_neg hhere] at hne
    rcases hother (haltAt work y' q' t') with hend | ⟨y₂, q₂, t₂, hne₂, hasks₂⟩
    · rw [Asks, ← hend] at hasks'
      exact absurd hasks' hbound
    · rw [← hsame y₂ q₂ t₂ hasks₂] at hne₂
      obtain ⟨rfl, rfl, rfl⟩ := haltAt_ne hne₂
      exact absurd (hsame _ _ _ hasks₂) hne

theorem ite {c : Prop} [Decidable c] {w' : Work → Recognition α} (h : c → Heeds Good w work s Q E)
    (h' : ¬ c → Heeds Good w' work s Q E) :
    Heeds Good (fun work => if c then w work else w' work) work s Q E := by
  by_cases hc : c
  · simp only [if_pos hc]
    exact h hc
  · simp only [if_neg hc]
    exact h' hc

end Heeds

/-- Whatever work there is, it makes a difference only where it is asked for, and stops the
recognition where it stops as if a bound was met. -/
structure Attends (w : Work → Recognition α) (s : Session) : Prop where
  asks : ∀ work other : Work, w work s = w other s ∨ ∃ y q t, work y q t ≠ other y q t ∧
    Asks w work s y q t
  stops : ∀ (work : Work) y q t, Asks w work s y q t → (work y q t).1 = .error .exhausted →
    (w work s).1 = .error .exhausted

theorem Heeds.attends {w : Work → Recognition α} {s : Session}
    {Good : RuleId → Nat → Session → Prop} {Q : α → Session → Prop} {E : Stop → Session → Prop}
    (h : ∀ work, Heeds Good w work s Q E) : Attends w s :=
  ⟨fun work other => ((h work).asks other).imp_right fun ⟨y, q, t, _, hne, hasks⟩ =>
    ⟨y, q, t, hne, hasks⟩, fun work => (h work).stops⟩

/-- Work that is the same but for stopping sometimes makes no difference but for stopping. -/
theorem Attends.same_or_stops {w : Work → Recognition α} {s : Session} (h : Attends w s)
    {work other : Work}
    (hsame : ∀ y q t, work y q t = other y q t ∨ (work y q t).1 = .error .exhausted) :
    w work s = w other s ∨ (w work s).1 = .error .exhausted := by
  refine (h.asks work other).imp_right fun ⟨y, q, t, hne, hasks⟩ => ?_
  exact h.stops work y q t hasks ((hsame y q t).resolve_left hne)

/-- Such work stops the recognition if it stops where the other work is asked for. -/
theorem Attends.stops_of_asks {w : Work → Recognition α} {s : Session} (h : Attends w s)
    {work other : Work}
    (hsame : ∀ y q t, work y q t = other y q t ∨ (work y q t).1 = .error .exhausted) {x : RuleId}
    {pos : Nat} {u : Session} (hasks : Asks w other s x pos u)
    (hstop : (work x pos u).1 = .error .exhausted) : (w work s).1 = .error .exhausted := by
  have hhalted : ∀ y q t, work y q t = haltAt other x pos u y q t ∨
      (work y q t).1 = .error .exhausted := by
    intro y q t
    rw [haltAt]
    by_cases hhere : y = x ∧ q = pos ∧ t = u
    · obtain ⟨rfl, rfl, rfl⟩ := hhere
      exact .inr hstop
    · rw [if_neg hhere]
      exact hsame y q t
  rcases h.same_or_stops hhalted with heq | hstop
  · exact (congrArg Prod.fst heq).trans hasks
  · exact hstop

section
variable {Good : RuleId → Nat → Session → Prop} {work : Work} {s : Session} {Q : β → Session → Prop}
  {E : Stop → Session → Prop}

theorem heeds_get {f : Work → Session → Recognition β} :
    Heeds Good (fun work => get >>= f work) work s Q E ↔ Heeds Good
      (fun work => f work s) work s Q E :=
  ⟨fun h => ⟨h.ends, h.asks, h.stops⟩, fun h => ⟨h.ends, h.asks, h.stops⟩⟩

theorem heeds_modify (g : Session → Session) {f : Work → PUnit → Recognition β} :
    Heeds Good (fun work => modify g >>= f work) work s Q E ↔ Heeds Good
      (fun work => f work ⟨⟩) work (g s) Q E :=
  ⟨fun h => ⟨h.ends, h.asks, h.stops⟩, fun h => ⟨h.ends, h.asks, h.stops⟩⟩

end

/-! ### Bodies -/

/-- Leaving the span of an evaluation comes to what the evaluation came to. -/
theorem leave_span (span : Span) (o : Except Stop Answer) : (do
    (exitNotes o).forM note
    record (.closed span)
    ExceptT.mk (Pure.pure o) : Recognition Answer) =
      fun s => (o, ((exitNotes o).map Event.note ++ [Event.closed span]).foldl (·.record ·) s) := by
  cases o with
  | ok a => rfl
  | error e => cases e <;> rfl

/-- What holds of work done one after the other if it holds of each part, and of what is no work. -/
structure Compositional (K : ∀ {α : Type}, (Work → Recognition α) → Prop) : Prop where
  pure {α : Type} (a : α) : K fun _ => Pure.pure a
  throw {α : Type} (e : Stop) : K (α := α) fun _ => throw e
  bind {α β : Type} {w : Work → Recognition α} {f : Work → α → Recognition β} :
    K w → (∀ a, K fun work => f work a) → K fun work => w work >>= f work

section
variable {K : ∀ {α : Type}, (Work → Recognition α) → Prop} {r : Recognizer}

namespace Compositional

theorem ite (_ : Compositional K) {c : Prop} [Decidable c] {w w' : Work → Recognition α} (h : K w)
    (h' : K w') : K fun work => if c then w work else w' work := by
  by_cases hc : c
  · simp only [if_pos hc]
    exact h
  · simp only [if_neg hc]
    exact h'

variable (hK : Compositional K)
include hK

theorem orStop (o : Except RuleError α) (x : RuleId) : K fun _ => Recognizer.orStop o x := by
  cases o with
  | ok a => exact hK.pure a
  | error e => cases e <;> exact hK.throw _

variable (hcall : ∀ y q, K fun work => work y q)
include hcall

theorem matchEach (rules : List RuleId) (pos : Nat) :
    K fun work => Recognizer.matchEach work rules pos := by
  induction rules generalizing pos with
  | nil => exact hK.pure _
  | cons y rest ih =>
    exact hK.bind (hcall y pos) fun a => hK.ite (hK.bind (ih a.stop) fun _ => hK.pure _) (hK.pure _)

theorem matchFirst (pos : Nat) (rules : List RuleId) :
    K fun work => Recognizer.matchFirst work pos rules := by
  induction rules with
  | nil => exact hK.pure _
  | cons y rest ih => exact hK.bind (hcall y pos) fun a => hK.ite (hK.pure _) ih

theorem matchMany (rule : RuleId) (n : Nat) (items : List Answer) (pos : Nat) :
    K fun work => Recognizer.matchMany work rule n items pos := by
  induction n generalizing items pos with
  | zero => exact hK.throw _
  | succ n ih => exact hK.bind (hcall rule pos) fun a => hK.ite (ih (a :: items) a.stop) (hK.pure _)

theorem body (x : RuleId) (pos : Nat) : K fun work => Recognizer.body work r x pos := by
  refine hK.bind (hK.orStop (r.graph.rule x) x) fun found => ?_
  cases found.body with
  | literal text => exact hK.ite (hK.pure _) (hK.pure _)
  | pattern p =>
    dsimp only
    split
    · exact hK.throw _
    · exact hK.pure _
    · exact hK.pure _
  | sequence rules =>
    refine hK.ite (hK.pure _) (hK.bind (hK.matchEach hcall rules pos) fun o => ?_)
    cases o <;> exact hK.pure _
  | choice rules =>
    refine hK.bind (hK.matchFirst hcall pos rules) fun o => ?_
    cases o <;> exact hK.pure _
  | optional child => exact hK.bind (hcall child pos) fun a => hK.ite (hK.pure _) (hK.pure _)
  | repetition child => exact hK.bind (hK.matchMany hcall child _ [] pos) fun _ => hK.pure _
  | epsilon => exact hK.pure _
  | endOfInput => exact hK.ite (hK.pure _) (hK.pure _)
  | reference target => exact hK.throw _

/-- What holds of a body holds of its evaluation, if reports do not matter. -/
theorem tracedBody (hrecord : ∀ e, K fun _ => record e)
    (hreport : ∀ (w : Work → Recognition Answer) (events : Except Stop Answer → List Event), K w →
      K fun work => outcomeOf (w work) >>= fun o s => (o, (events o).foldl (·.record ·) s)) (x :
      RuleId) (pos : Nat) :
    K fun work => Recognizer.tracedBody work r x pos := by
  refine hK.ite (hK.bind (hK.orStop (r.graph.display x) x) fun text => ?_) (hK.body hcall x pos)
  refine hK.bind (hrecord _) fun _ => hK.bind (hrecord (.note _)) fun _ => ?_
  simp only [leave_span]
  exact hreport _ _ (hK.body hcall x pos)

end Compositional

end

/-- In any session with `I`, `w` keeps it and asks only for what is good. -/
def Keeps (Good : RuleId → Nat → Session → Prop) (I : Session → Prop) (w : Work → Recognition α)
    (work : Work) : Prop :=
  ∀ s, I s → Heeds Good w work s (fun _ s' => I s') fun _ s' => I s'

section
variable {Good : RuleId → Nat → Session → Prop} {I : Session → Prop} {work : Work} {r : Recognizer}

theorem Keeps.compositional (Good : RuleId → Nat → Session → Prop) (I : Session → Prop)
    (work : Work) : Compositional fun w => Keeps Good I w work where
  pure _ := fun _ hs => .const hs
  throw _ := fun _ hs => .const hs
  bind h hf := fun s hs => (h s hs).bind fun a s' hs' => hf a s' hs'

/-- What the applications keep that a body makes, its evaluation keeps. -/
theorem tracedBody_keeps (hwork : ∀ y q, Keeps Good I (fun work => work y q) work)
    (hlog : ∀ s e, I s → I (s.record e)) (x : RuleId) (pos : Nat) :
    Keeps Good I (fun work => tracedBody work r x pos) work := by
  have hK := Keeps.compositional Good I work
  have hkept : ∀ (events : List Event) s, I s → I (events.foldl (·.record ·) s) := by
    intro events
    induction events with
    | nil => exact fun _ hs => hs
    | cons e rest ih => exact fun s hs => ih _ (hlog s e hs)
  refine hK.tracedBody hwork (fun e s hs => .const (hlog s e hs)) (fun w events hw s hs => ?_) x pos
  exact (hw s hs).outcome (fun a s' hs' => .const (hkept (events (.ok a)) s' hs'))
    (fun e s' hs' => .const (hkept (events (.error e)) s' hs')) fun _ _ => rfl

end

end Packrat.Recognizer
