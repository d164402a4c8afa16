import Packrat.Proofs.Recognition.Asking

/-! Two recognitions, part by part.

A relation of recognitions is a `Comparison` if it holds of parts that are the same in both, and of
what is put together of parts that it holds of. What is looked up and changed in a session in
between has nothing to do with what the session has reported and counted (`Session.Blind`), and what
catches a stop passes it on. Then the relation holds of two applications that differ in how steps
are counted and evaluations reported, if it holds of these (`apply_compares`).

One such relation is that nothing but reports of some kind tells two recognitions apart
(`SameBut`). -/
namespace Packrat
variable {α β : Type}

/-! ### What a session reports and counts -/

namespace Session

/-- The session with other reports and another number of steps. -/
def withRecord (s : Session) (log : Array Event) (steps : Nat) : Session := { s with log, steps }

/-- The session with only such reports as are kept. -/
def sift (keep : Array Event → Array Event) (s : Session) : Session :=
  s.withRecord (keep s.log) s.steps

/-- The session without what was reported. -/
def unlogged (s : Session) : Session := s.withRecord #[] s.steps

/-- What is done to a session does not depend on what it has reported and counted, and leaves that
as it is. -/
def Blind (f : Session → Session) : Prop :=
  ∀ s log steps, f (s.withRecord log steps) = (f s).withRecord log steps

namespace Blind
variable {f g : Session → Session}

theorem keeps (hf : Blind f) (s : Session) : (f s).log = s.log ∧ (f s).steps = s.steps := by
  have hsame : f s = (f s).withRecord s.log s.steps := hf s s.log s.steps
  rw [hsame]
  exact ⟨rfl, rfl⟩

theorem sift (hf : Blind f) (keep : Array Event → Array Event) (s : Session) :
    (f s).sift keep = f (s.sift keep) := by
  rw [Session.sift, (hf.keeps s).1, (hf.keeps s).2]
  exact (hf s _ _).symm

theorem comp (hf : Blind f) (hg : Blind g) : Blind fun s => f (g s) := fun s log steps =>
  (congrArg f (hg s log steps)).trans (hf (g s) log steps)

theorem foldl {α : Type} {f : Session → α → Session} (hf : ∀ a, Blind (f · a)) (as : List α) :
    Blind (as.foldl f) := by
  induction as with
  | nil => exact fun _ _ _ => rfl
  | cons a rest ih => exact ih.comp (hf a)

end Blind

theorem foldl_record (events : List Event) (s : Session) :
    (events.foldl (·.record ·) s).unlogged = s.unlogged := by
  induction events generalizing s with
  | nil => rfl
  | cons e rest ih => exact ih (s.record e)

@[simp] theorem growing_withRecord (s : Session) (log : Array Event) (steps : Nat) :
    (s.withRecord log steps).growing = s.growing := rfl

@[simp] theorem frame?_withRecord (s : Session) (log : Array Event) (steps : Nat) :
    (s.withRecord log steps).frame? = s.frame? := rfl

section
variable (x anchor : RuleId) (pos : Nat) (id : HeadId)

theorem modifyHead_blind (f : Head → Head) : Blind (·.modifyHead id f) := by
  intro s log steps
  unfold modifyHead withRecord
  dsimp only
  split <;> rfl

theorem remember_blind (e : Entry) : Blind (·.remember x pos e) := by
  intro s log steps
  have hset : (s.withRecord log steps).setEntry x pos e = (s.setEntry x pos e).withRecord log
      steps := rfl
  simp only [remember, hset, growing_withRecord]
  split
  · exact modifyHead_blind _ _ (s.setEntry x pos e) log steps
  · rfl

theorem involve_blind : Blind (·.involve id) := by
  intro s log steps
  unfold involve withRecord
  dsimp only
  split <;> rfl

theorem reenter_blind (number : Nat) : Blind (·.reenter number) := by
  intro s log steps
  simp only [reenter, frame?_withRecord]
  split
  · rfl
  · split
    · exact involve_blind _ s log steps
    · exact involve_blind _ { s with nextHead := _, heads := _, frames := _ } log steps

theorem spend_blind : Blind (·.spend x pos) := by
  intro s log steps
  simp only [spend, growing_withRecord]
  split
  · exact modifyHead_blind _ _ s log steps
  · rfl

theorem discard_blind : Blind (·.discard id anchor pos) := by
  intro s log steps
  refine (congrArg (List.foldl (·.dropEntry · pos) · _) (modifyHead_blind id _ s log steps)).trans
    ?_
  exact Blind.foldl (fun _ _ _ _ => rfl) _ _ log steps

theorem startRound_blind : Blind (·.startRound id anchor pos) :=
  (modifyHead_blind _ _).comp (discard_blind anchor pos id)

theorem endGrowth_blind (outer : Option HeadId) : Blind (·.endGrowth id anchor pos outer) := by
  intro s log steps
  simp only [endGrowth, discard_blind anchor pos id s log steps]
  rfl

end

end Session

/-! ### The same but for reports -/

/-- What is kept of a log with one more event depends on what was kept before. -/
def Steady (keep : Array Event → Array Event) : Prop := ∀ l l' e, keep l = keep l' → keep
      (l.push e) = keep (l'.push e)

/-- In sessions that are the same but for reports that are not kept, `x` does what `x'` does. -/
def SameBut (keep : Array Event → Array Event) (x x' : Recognition α) : Prop :=
  ∀ s t, s.sift keep = t.sift keep → (x s).1 = (x' t).1 ∧ (x s).2.sift keep = (x' t).2.sift keep

namespace SameBut
variable {keep : Array Event → Array Event} {x x' : Recognition α}

theorem pure (a : α) : SameBut keep (pure a : Recognition α) (pure a) := fun _ _ hst => ⟨rfl, hst⟩

theorem throw (e : Stop) : SameBut keep (throw e : Recognition α) (throw e) :=
  fun _ _ hst => ⟨rfl, hst⟩

theorem modify {g : Session → Session} (hg : Session.Blind g) :
    SameBut keep (modify g : Recognition PUnit) (modify g) := by
  intro s t hst
  show _ ∧ (g s).sift keep = (g t).sift keep
  rw [hg.sift, hg.sift, hst]
  exact ⟨rfl, rfl⟩

theorem bind {f f' : α → Recognition β} (h : SameBut keep x x')
    (hf : ∀ a, SameBut keep (f a) (f' a)) : SameBut keep (x >>= f) (x' >>= f') := by
  intro s t hst
  obtain ⟨ho, hs'⟩ := h s t hst
  rw [run_bind, run_bind]
  revert ho hs'
  rcases x s with ⟨o, s'⟩
  rcases x' t with ⟨o', t'⟩
  rintro (rfl : o = o') hs'
  cases o with
  | ok a => exact hf a s' t' hs'
  | error e => exact ⟨rfl, hs'⟩

/-- What is looked up in the session is not in the log. -/
theorem get {f f' : Session → Recognition β} (hf : ∀ s, f s = f s.unlogged)
    (hf' : ∀ s, f' s = f' s.unlogged) (h : ∀ s, SameBut keep (f s) (f' s)) :
    SameBut keep (get >>= f) (get >>= f') := by
  intro s t hst
  have hrest : s.unlogged = t.unlogged := (congrArg Session.unlogged hst :)
  show (f s s).1 = (f' t t).1 ∧ (f s s).2.sift keep = (f' t t).2.sift keep
  rw [hf s, hf' t, ← hrest]
  exact h _ s t hst

theorem outcome {f f' : Except Stop α → Recognition β} (h : SameBut keep x x')
    (hf : ∀ o, SameBut keep (f o) (f' o)) :
    SameBut keep (Recognizer.outcomeOf x >>= f) (Recognizer.outcomeOf x' >>= f') := by
  intro s t hst
  obtain ⟨ho, hs'⟩ := h s t hst
  show (f (x s).1 (x s).2).1 = (f' (x' t).1 (x' t).2).1 ∧
    (f (x s).1 (x s).2).2.sift keep = (f' (x' t).1 (x' t).2).2.sift keep
  rw [← ho]
  exact hf _ _ _ hs'

theorem record (hkeep : Steady keep) (e : Event) :
    SameBut keep (Recognizer.record e) (Recognizer.record e) := by
  intro s t hst
  have hlog : keep s.log = keep t.log := (congrArg Session.log hst :)
  have hrest : s.unlogged = t.unlogged := (congrArg Session.unlogged hst :)
  refine ⟨rfl, ?_⟩
  show s.unlogged.withRecord (keep (s.log.push e)) s.steps = t.unlogged.withRecord
      (keep (t.log.push e)) t.steps
  have hsteps : s.steps = t.steps := (congrArg Session.steps hst :)
  rw [hrest, hkeep _ _ e hlog, hsteps]

end SameBut

namespace Recognizer

theorem tick_sameBut (keep : Array Event → Array Event) (r : Recognizer) :
    SameBut keep (tick r) (tick r) := by
  have hcount : SameBut keep (modify Session.counted : Recognition PUnit)
      (modify Session.counted) :=
    fun _ _ hst => ⟨rfl, (congrArg Session.counted hst :)⟩
  refine hcount.bind fun _ => ?_
  cases r.stepLimit with
  | none => exact .pure _
  | some limit =>
    refine .get (fun _ => rfl) (fun _ => rfl) fun s => ?_
    split
    · exact .throw _
    · exact .pure _

/-- What holds of two recognitions if it holds of their parts, and of parts that are the same. -/
structure Comparison (R : ∀ {α : Type}, Recognition α → Recognition α → Prop) : Prop where
  pure {α : Type} (a : α) : R (Pure.pure a) (Pure.pure a)
  throw {α : Type} (e : Stop) : R (α := α) (throw e) (throw e)
  bind {α β : Type} {x x' : Recognition α} {f f' : α → Recognition β} : R x x' →
    (∀ a, R (f a) (f' a)) → R (x >>= f) (x' >>= f')
  get {α : Type} {f f' : Session → Recognition α} : (∀ s, f s = f s.unlogged) →
    (∀ s, f' s = f' s.unlogged) → (∀ s, R (f s) (f' s)) → R (get >>= f) (get >>= f')
  modify {g : Session → Session} : Session.Blind g → R (modify g : Recognition PUnit) (modify g)
  grown (rule : String) (pos rounds length : Nat) :
    R (note (.seedGrown rule pos rounds length)) (note (.seedGrown rule pos rounds length))
  outcome {α β : Type} {x x' : Recognition α} {f f' : Except Stop α → Recognition β} : R x x' →
    (∀ o, R (f o) (f' o)) →
    (∀ e s, (f (.error e) s).1 = .error e ∧ (f (.error e) s).2.steps = s.steps) →
    R (outcomeOf x >>= f) (outcomeOf x' >>= f')

theorem sameBut_comparison {keep : Array Event → Array Event} (hkeep : Steady keep) :
    Comparison (SameBut keep) where
  pure := .pure
  throw := .throw
  bind := .bind
  get := .get
  modify := .modify
  grown _ _ _ _ := .record hkeep _
  outcome h hf _ := .outcome h hf

/-- Recognizers of the same, which may differ in how they count and report as far as `R` goes. -/
structure Akin (R : ∀ {α : Type}, Recognition α → Recognition α → Prop) (r r' : Recognizer) :
    Prop where
  graph : r'.graph = r.graph
  buffer : r'.buffer = r.buffer
  tick : R (tick r) (tick r')
  body {work work' : Work} : (∀ y q, R (work y q) (work' y q)) → ∀ x pos,
    R (tracedBody work r x pos) (tracedBody work' r' x pos)

theorem steps_endGrow_error {r : Recognizer} {id : HeadId} {x : RuleId} {pos : Nat}
    (outer : Option HeadId) (e : Stop) (s : Session) :
    (endGrow r id x pos outer (.error e) s).2.steps = s.steps :=
  ((Session.endGrowth_blind x pos id outer).keeps s).2

theorem steps_leaveWith_error {r : Recognizer} {x : RuleId} {pos : Nat} (work : Work) (e : Stop)
    (s : Session) : (leaveWith work r x pos (.error e) s).2.steps = s.steps := by
  rw [← ends_session (I := fun s' => s'.steps = s.steps), leaveWith, ends_bind, ends_get, ends_bind,
    ends_modify]
  dsimp only
  rw [ends_bind, ends_modify]
  split <;> rfl

section
variable {R : ∀ {α : Type}, Recognition α → Recognition α → Prop} (h : Comparison R)
variable {r r' : Recognizer} {work work' : Work} {x : RuleId} {pos : Nat} {id : HeadId}
include h

theorem Comparison.result {α : Type} (o : Except Stop α) :
    R (ExceptT.mk (Pure.pure o) : Recognition α) (ExceptT.mk (Pure.pure o)) := by
  cases o with
  | ok a => exact h.pure a
  | error e => exact h.throw e

theorem Comparison.compositional (work work' : Work) :
    Compositional fun w => R (w work) (w work') where
  pure := h.pure
  throw := h.throw
  bind := h.bind

theorem endGrow_compares (outer : Option HeadId) (o : Except Stop Growth) :
    R (endGrow r id x pos outer o) (endGrow r id x pos outer o) := by
  have hrule : R (orStop (r.graph.rule x) x) (orStop (r.graph.rule x) x) := by
    cases r.graph.rule x with
    | ok found => exact h.pure found
    | error e => cases e <;> exact h.throw _
  refine h.bind (h.modify (Session.endGrowth_blind x pos id outer)) fun _ => h.bind (h.result o)
    fun growth => ?_
  have hcommitted : Session.Blind fun s =>
      growth.committed.foldl (fun s entry => s.remember entry.1 pos entry.2) s :=
    Session.Blind.foldl (fun entry : RuleId × Entry => Session.remember_blind entry.1 pos entry.2) _
  refine h.bind (h.modify hcommitted) fun _ => h.bind (h.modify (Session.remember_blind x pos _))
    fun _ => ?_
  exact h.bind hrule fun found => h.bind (h.grown ..) fun _ => h.pure _

section
variable (hwork : ∀ y q, R (work y q) (work' y q))
include hwork

theorem growRounds_compares (n : Nat) (growth : Growth) :
    R (growRounds work id x pos n growth) (growRounds work' id x pos n growth) := by
  induction n generalizing growth with
  | zero => exact h.throw _
  | succ n ih =>
    refine h.bind (h.modify (Session.startRound_blind x pos id)) fun _ =>
      h.bind (hwork x pos) fun a => ?_
    split
    · exact h.bind (h.modify fun _ _ _ => rfl) fun _ => h.get (fun _ => rfl) (fun _ => rfl)
        fun s => ih _
    · exact h.pure _

theorem grow_compares (seed : Answer) :
    R (grow work r id x pos seed) (grow work' r id x pos seed) := by
  refine h.get (fun _ => rfl) (fun _ => rfl) fun s => h.bind (h.modify fun _ _ _ => rfl) fun _ => ?_
  exact h.outcome (growRounds_compares h hwork _ _) (endGrow_compares h _) fun e s =>
    ⟨rfl, steps_endGrow_error _ e s⟩

theorem leaveWith_compares (o : Except Stop Answer) :
    R (leaveWith work r x pos o) (leaveWith work' r x pos o) := by
  refine h.get (fun _ => rfl) (fun _ => rfl) fun s => h.bind (h.modify fun _ _ _ => rfl) fun _ => ?_
  have hrelease : ∀ id : HeadId, R (modify (·.release id) : Recognition PUnit)
      (modify (·.release id)) := fun _ =>
    h.modify fun _ _ _ => rfl
  cases o with
  | error e =>
    refine h.bind (h.modify fun _ _ _ => rfl) fun _ => ?_
    rcases s.top with _ | ⟨id, anchors⟩
    · exact h.throw e
    · cases anchors with
      | false => exact h.throw e
      | true => exact h.bind (hrelease id) fun _ => h.throw e
  | ok a =>
    have hremember : ∀ e, R (modify (·.remember x pos e) : Recognition PUnit)
        (modify (·.remember x pos e)) := fun e =>
      h.modify (Session.remember_blind x pos e)
    rcases s.top with _ | ⟨id, anchors⟩
    · exact h.bind (hremember _) fun _ => h.pure a
    cases anchors with
    | false => exact h.bind (hremember _) fun _ => h.pure a
    | true =>
      have hend : ∀ o : Except Stop Answer, R (do modify (·.release id); ExceptT.mk (pure o))
          (do modify (·.release id); ExceptT.mk (pure o)) :=
        fun o => h.bind (hrelease id) fun _ => h.result o
      refine h.bind (hremember _) fun _ => ?_
      dsimp only
      split
      · exact h.outcome (grow_compares h hwork a) hend fun _ _ => ⟨rfl, rfl⟩
      · exact hend (.ok a)

theorem applyFresh_compares : R (applyFresh work r x pos) (applyFresh work' r x pos) := by
  refine h.bind (h.modify fun _ _ _ => rfl) fun _ =>
    h.outcome (hwork x pos) (leaveWith_compares h hwork) fun e s => ?_
  exact ⟨(leaveWith_stops work r x pos e s).stops, steps_leaveWith_error work e s⟩

theorem step_compares (htick : R (tick r) (tick r')) (hgraph : r'.graph = r.graph)
    (hbuffer : r'.buffer = r.buffer) (x : RuleId) (pos : Nat) :
    R (step work r x pos) (step work' r' x pos) := by
  have hfresh : R (applyFresh work r x pos) (applyFresh work' r' x pos) := by
    obtain ⟨graph, buffer, stepLimit, trace⟩ := r
    obtain ⟨_, _, stepLimit', trace'⟩ := r'
    cases hgraph
    cases hbuffer
    exact applyFresh_compares h (r := ⟨graph, buffer, stepLimit, trace⟩) hwork
  refine h.bind htick fun _ => h.get (fun _ => rfl) (fun _ => rfl) fun s => ?_
  split
  · refine h.bind (h.modify (Session.spend_blind x pos)) fun _ => h.bind (hwork x pos) fun a => ?_
    exact h.bind (h.modify (Session.remember_blind x pos (.final a))) fun _ => h.pure a
  refine h.get (fun _ => rfl) (fun _ => rfl) fun s => ?_
  split
  · exact h.pure _
  · exact h.bind (h.modify (Session.reenter_blind _)) fun _ => h.pure _
  · refine h.get (fun _ => rfl) (fun _ => rfl) fun s => ?_
    split
    · exact h.bind (h.modify (Session.involve_blind _)) fun _ => h.pure _
    refine h.get (fun _ => rfl) (fun _ => rfl) fun s => ?_
    split
    · exact h.pure _
    · exact h.bind (h.modify fun _ _ _ => rfl) fun _ => hfresh
  · exact hfresh

end

theorem applyWithin_compares (hr : Akin R r r') (depth : Nat) (x : RuleId) (pos : Nat) :
    R (r.applyWithin depth x pos) (r'.applyWithin depth x pos) := by
  induction depth generalizing x pos with
  | zero => exact h.throw _
  | succ depth ih => exact step_compares h (hr.body ih) hr.tick hr.graph hr.buffer x pos

/-- Applications are compared by how steps are counted and evaluations reported. -/
theorem apply_compares (hr : Akin R r r') (x : RuleId) (pos : Nat) :
    R (r.apply x pos) (r'.apply x pos) := by
  have hbound : r'.depthBound = r.depthBound := by rw [depthBound, depthBound, hr.graph, hr.buffer]
  rw [apply, apply, hr.graph, hbound]
  split
  · exact applyWithin_compares h hr r.depthBound x pos
  · exact h.throw _

end

end Recognizer

end Packrat
