import Packrat.Proofs.Recognition.Manner

/-! What is nested in what.

An application evaluates the body of its rule, once or again and again, and a body applies rules.
`Begins` says so of one call and the next, and `Nested` of a call and all that is done for it. What
is known in a `Manner` of the session in which a call is begun is known when it has ended, if no
application breaks it that is nested in the call, and it is known wherever the call makes another,
in the state that belongs to it (`Manner.kept`).

Whether anything nested in a call is of some kind is found out by a run that stops as soon as it
gets there (`Call.halts_iff`). -/
namespace Packrat

namespace Recognizer

/-- A task for a rule at an offset, as it is begun in a session. -/
structure Call where
  task : Task
  depth : Nat
  rule : RuleId
  pos : Nat
  session : Session

def Call.key (c : Call) : Key := (c.rule, c.pos)

def Call.run (r : Recognizer) (c : Call) : Except Stop Answer × Session :=
  c.task.run r c.depth c.rule c.pos c.session

/-- One call is made directly for another. -/
inductive Begins (r : Recognizer) : Call → Call → Prop where
  | evaluates {depth : Nat} {x : RuleId} {pos : Nat} {s t : Session} :
    Asks (fun work => step work r x pos) (Task.run r depth .evaluate) s x pos t →
      r.Begins ⟨.apply, depth + 1, x, pos, s⟩ ⟨.evaluate, depth, x, pos, t⟩
  | applies {depth : Nat} {x y : RuleId} {pos q : Nat} {s t : Session} :
    Asks (fun work => tracedBody work r x pos) (Task.run r depth .apply) s y q t →
      r.Begins ⟨.evaluate, depth, x, pos, s⟩ ⟨.apply, depth, y, q, t⟩

/-- A call is made for another, directly or not, or is the other one. -/
abbrev Nested (r : Recognizer) : Call → Call → Prop := Relation.ReflTransGen r.Begins

variable {r : Recognizer} {c c' : Call}

/-- The call is made in a run. -/
def Call.Begun (r : Recognizer) (c : Call) : Prop := r.Begun c.task c.depth c.rule c.pos c.session

theorem Call.Begun.begins (h : c.Begun r) (hbegins : r.Begins c c') : c'.Begun r := by
  cases hbegins with
  | evaluates hasks => exact Recognizer.Begun.evaluates h hasks
  | applies hasks => exact Recognizer.Begun.applies h hasks

/-- Whatever is begun is an application between others, or is begun directly for a call. -/
theorem Call.Begun.induct {P : Call → Prop}
    (first : ∀ x pos s, r.Reachable s → P ⟨.apply, r.depthBound, x, pos, s⟩)
    (step : ∀ c c', c.Begun r → r.Begins c c' → P c → P c') (h : c.Begun r) : P c := by
  obtain ⟨task, depth, x, pos, s⟩ := c
  have h' : r.Begun task depth x pos s := h
  clear h
  induction h' with
  | first pos hs _ => exact first _ pos _ hs
  | @evaluates depth x pos s t hbegun hasks ih =>
    exact step ⟨.apply, depth + 1, x, pos, s⟩ _ hbegun (.evaluates hasks) ih
  | @applies depth x y pos q s t hbegun hasks ih =>
    exact step ⟨.evaluate, depth, x, pos, s⟩ _ hbegun (.applies hasks) ih

theorem Call.Begun.nested (h : c.Begun r) (hnested : r.Nested c c') : c'.Begun r := by
  induction hnested with
  | refl => exact h
  | tail _ hbegins ih => exact ih.begins hbegins

theorem Call.Begun.not_exhausted (h : c.Begun r) : (c.run r).1 ≠ .error .exhausted := by
  obtain ⟨_, hready, hfit, dis⟩ := h.disciplined
  exact Recognizer.not_exhausted (Recognizer.Begun.upholds hready hfit) dis

/-- Nothing is known, and nothing is broken. -/
def blank : Manner Unit where
  Holds _ _ := True
  Breaks _ _ _ := False
  frame k _ := k
  left k _ _ := k
  grown k _ _ := k
  alike _ _ := trivial
  enter _ _ _ := trivial
  leave _ _ := trivial
  leave_anchor _ _ := trivial
  startGrowth _ _ _ := trivial
  endGrowth _ _ := trivial
  release _ := trivial
  reenter _ _ _ _ := trivial
  involve _ _ _ _ _ := trivial

theorem step_heeds_blank (r : Recognizer) (x : RuleId) (pos : Nat) (s : Session) (work : Work) :
    Heeds (blank.Fits () (x, pos)) (fun work => step work r x pos) work s
      (fun _ _ => True) fun _ _ => True :=
  Manner.step_heeds (M := blank) (k := ()) (fun _ _ _ _ => .trivial) trivial id

theorem step_attends (r : Recognizer) (x : RuleId) (pos : Nat) (s : Session) :
    Attends (fun work => step work r x pos) s := Heeds.attends (step_heeds_blank r x pos s)

/-- An application only asks for evaluations of its own body. -/
theorem step_asks (r : Recognizer) (x : RuleId) (pos : Nat) (s : Session) (work other : Work) :
    step work r x pos s = step other r x pos s ∨
      ∃ t, work x pos t ≠ other x pos t ∧ Asks (fun work => step work r x pos) work s x pos t := by
  refine ((step_heeds_blank r x pos s work).asks other).imp_right ?_
  rintro ⟨y, q, t, ⟨hkey, _⟩, hne, hasks⟩
  cases hkey
  exact ⟨t, hne, hasks⟩

theorem tracedBody_attends (r : Recognizer) (x : RuleId) (pos : Nat) (s : Session) :
    Attends (fun work => tracedBody work r x pos) s := by
  have hwork : ∀ (work : Work) y q, Keeps (fun _ _ _ => True) (fun _ => True)
      (fun work => work y q) work :=
    fun _ _ _ _ _ => .call trivial .trivial
  exact Heeds.attends fun work =>
    tracedBody_keeps (hwork work) (fun _ _ _ => trivial) x pos s trivial

/-! ### What is not allowed for -/

/-- Applies a rule, but stops as if a bound was met before any application that is not allowed
for. -/
def applyUnless (r : Recognizer) (bad : RuleId → Nat → Session → Bool) :
    Nat → RuleId → Nat → Recognition Answer
  | 0, _, _ => throw .exhausted
  | depth + 1, x, pos => do
    if bad x pos (← get) then throw .exhausted
    else step (tracedBody (r.applyUnless bad depth) r) r x pos

def Task.runUnless (r : Recognizer) (bad : RuleId → Nat → Session → Bool) (depth : Nat) :
    Task → RuleId → Nat → Recognition Answer
  | .apply => r.applyUnless bad depth
  | .evaluate => tracedBody (r.applyUnless bad depth) r

/-- The call stops before something that is not allowed for. -/
def Call.Halts (r : Recognizer) (bad : RuleId → Nat → Session → Bool) (c : Call) : Prop :=
  (c.task.runUnless r bad c.depth c.rule c.pos c.session).1 = .error .exhausted

section
variable {bad : RuleId → Nat → Session → Bool} {depth : Nat} {x : RuleId} {pos : Nat} {s : Session}

theorem applyUnless_run (r : Recognizer) : r.applyUnless bad (depth + 1) x pos s =
    (if bad x pos s then throw .exhausted else step (tracedBody (r.applyUnless bad depth) r) r x
        pos : Recognition Answer) s :=
  rfl

/-- Nothing is different unless this stops. -/
theorem applyUnless_same (r : Recognizer) (bad : RuleId → Nat → Session → Bool) (depth : Nat)
    (x : RuleId) (pos : Nat) (s : Session) :
    r.applyUnless bad depth x pos s = r.applyWithin depth x pos s ∨
      (r.applyUnless bad depth x pos s).1 = .error .exhausted := by
  induction depth generalizing x pos s with
  | zero => exact .inl rfl
  | succ depth ih =>
    rw [applyUnless_run]
    split
    · exact .inr rfl
    · exact (step_attends r x pos s).same_or_stops fun y q t =>
        (tracedBody_attends r y q t).same_or_stops ih

theorem Call.halts_of_bad (htask : c.task = .apply) (hbad : bad c.rule c.pos c.session = true) :
    c.Halts r bad := by
  rw [Call.Halts, htask]
  show (r.applyUnless bad c.depth c.rule c.pos c.session).1 = _
  cases c.depth with
  | zero => rfl
  | succ depth =>
    rw [applyUnless_run, if_pos hbad]
    rfl

theorem Begins.halts (h : r.Begins c c') (hhalts : c'.Halts r bad) : c.Halts r bad := by
  cases h with
  | @evaluates depth x pos s t hasks =>
    show (r.applyUnless bad (depth + 1) x pos s).1 = _
    rw [applyUnless_run]
    split
    · rfl
    · exact (step_attends r x pos s).stops_of_asks
        (fun y q t => (tracedBody_attends r y q t).same_or_stops (applyUnless_same r bad depth))
        hasks hhalts
  | applies hasks =>
    exact (tracedBody_attends r _ _ _).stops_of_asks (applyUnless_same r bad _) hasks hhalts

theorem Call.Halts.of_nested (h : c'.Halts r bad) (hnested : r.Nested c c') : c.Halts r bad :=
  Relation.ReflTransGen.head_induction_on hnested (motive := fun c _ => c.Halts r bad) h
    fun hbegins _ hhalts => hbegins.halts hhalts

/-- Nothing is different where all is allowed for that is nested in a call. -/
theorem evaluate_eq {work : Work}
    (hallowed : ∀ y q t, r.Begins ⟨.evaluate, depth, x, pos, s⟩ ⟨.apply, depth, y, q, t⟩ →
    work y q t = r.applyWithin depth y q t) : tracedBody work r x pos s = tracedBody
      (r.applyWithin depth) r x pos s := by
  rcases (tracedBody_attends r x pos s).asks (r.applyWithin depth) work with heq | ⟨y, q,
    t, hne, hasks⟩
  · exact heq.symm
  · exact absurd (hallowed y q t (.applies hasks)).symm hne

theorem applyUnless_eq (hallowed : ∀ c', r.Nested ⟨.apply, depth, x, pos, s⟩ c' → c'.task = .apply →
    bad c'.rule c'.pos c'.session = false) : r.applyUnless bad depth x pos s =
      r.applyWithin depth x pos s := by
  induction depth generalizing x pos s with
  | zero => rfl
  | succ depth ih =>
    rw [applyUnless_run, if_neg (Bool.eq_false_iff.mp (hallowed _ .refl rfl))]
    rcases step_asks r x pos s (Task.run r depth .evaluate)
      (tracedBody (r.applyUnless bad depth) r) with
      heq | ⟨t, hne, hasks⟩
    · exact heq.symm
    · refine absurd (evaluate_eq fun y q u hbegins => ih fun c' hnested => ?_).symm hne
      exact hallowed c' (.head (.evaluates hasks) (.head hbegins hnested))

/-- A call stops before something that is not allowed for if and only if such an application is
nested in it. -/
theorem Call.halts_iff (hrun : (c.run r).1 ≠ .error .exhausted) :
    c.Halts r bad ↔ ∃ c', r.Nested c c' ∧ c'.task = .apply ∧
    bad c'.rule c'.pos c'.session = true := by
  refine ⟨fun hhalts => ?_, fun ⟨c', hnested, htask, hbad⟩ =>
    (halts_of_bad htask hbad).of_nested hnested⟩
  by_contra hnone
  have hallowed : ∀ c', r.Nested c c' → c'.task = .apply → bad c'.rule c'.pos c'.session = false :=
    fun c' hnested htask => Bool.eq_false_iff.mpr fun hbad => hnone ⟨c', hnested, htask, hbad⟩
  refine hrun ?_
  obtain ⟨task, depth, x, pos, s⟩ := c
  cases task with
  | apply => exact (congrArg Prod.fst (applyUnless_eq hallowed)).symm.trans hhalts
  | evaluate =>
    have heq : tracedBody (r.applyUnless bad depth) r x pos s = tracedBody (r.applyWithin depth)
        r x pos s :=
      evaluate_eq fun y q t hbegins => applyUnless_eq fun c' hnested =>
        hallowed c' (.head hbegins hnested)
    exact (congrArg Prod.fst heq).symm.trans hhalts

end

end Recognizer

namespace Manner
open Recognizer
variable {κ : Type} {M : Manner κ} {r : Recognizer} {k : κ} {c c' : Call}

/-- No application breaks what is known that is nested in the call. -/
def Unbroken (M : Manner κ) (r : Recognizer) (c : Call) : Prop :=
  ∀ c', r.Nested c c' → c'.task = .apply → ¬ M.Breaks c'.rule c'.pos c'.session.counted

theorem Unbroken.begins (h : M.Unbroken r c) (hbegins : r.Begins c c') :
    M.Unbroken r c' := fun d hnested =>
  h d (.head hbegins hnested)

/-- The state in which a call is made that is made directly for another. -/
def Passes (M : Manner κ) (c : Call) (k k' : κ) : Prop :=
  match c.task with
  | .apply => M.Along k c.key k'
  | .evaluate => k' = k

/-- A call keeps what is known, and makes others only where it is known. -/
structure Kept (M : Manner κ) (r : Recognizer) (c : Call) (k : κ) : Prop where
  ends : M.Holds k (c.run r).2
  begins : (c.run r).1 ≠ .error .exhausted → ∀ c', r.Begins c c' → ∃ k', M.Passes c k k' ∧
    M.Holds k' c'.session

/-- The same work where this is allowed; anything else stops. -/
noncomputable def tame (work : Work) (allowed : RuleId → Nat → Session → Prop) : Work :=
  open Classical in fun x pos s => if allowed x pos s then work x pos s else (.error .exhausted, s)

theorem tame_ends {work : Work} {allowed : RuleId → Nat → Session → Prop} {x : RuleId} {pos : Nat}
    {s : Session} (hs : M.Holds k s) (h : allowed x pos s → M.Holds k (work x pos s).2) :
    Ends (tame work allowed x pos) s (fun _ => M.Holds k) fun _ => M.Holds k := by
  rw [ends_session, tame]
  by_cases hallowed : allowed x pos s
  · rw [if_pos hallowed]
    exact h hallowed
  · rw [if_neg hallowed]
    exact hs

/-- A body keeps what is known if the applications do that it makes. -/
theorem evaluate_kept {depth : Nat} (happly : ∀ x pos s k, M.Unbroken r ⟨.apply, depth, x, pos, s⟩ →
      M.Holds k s →
    M.Kept r ⟨.apply, depth, x, pos, s⟩ k) (x : RuleId) (pos : Nat) (s : Session) (k : κ)
    (hunbroken : M.Unbroken r ⟨.evaluate, depth, x, pos, s⟩) (hs : M.Holds k s) :
    M.Kept r ⟨.evaluate, depth, x, pos, s⟩ k := by
  let tamed := tame (Task.run r depth .apply) fun y q t => M.Unbroken r ⟨.apply, depth, y, q, t⟩
  have hwork : ∀ y q, Keeps (fun _ _ t => M.Holds k t) (M.Holds k) (fun work => work y q) tamed :=
    fun y q t ht => .call ht (tame_ends ht fun hallowed => (happly y q t k hallowed ht).ends)
  have hsame : ∀ y q t,
      Asks (fun work => tracedBody work r x pos) (Task.run r depth .apply) s y q t →
      tamed y q t = Task.run r depth .apply y q t :=
    fun y q t hasks => if_pos (hunbroken.begins (.applies hasks))
  have hheeds := tracedBody_keeps (r := r) hwork (fun s e hs => M.alike hs (.rest ..)) x pos s hs
  obtain ⟨hends, hbegins⟩ := hheeds.transfer ((tracedBody_attends r x pos s).asks _) hsame
  refine ⟨ends_session.mp hends, fun hbound c' hbegun => ?_⟩
  cases hbegun with
  | applies hasks => exact ⟨k, rfl, hbegins hbound _ _ _ hasks⟩

/-- An application keeps what is known if the evaluations of bodies do that it makes. -/
theorem apply_kept {depth : Nat} (heval : ∀ x pos s k, M.Unbroken r ⟨.evaluate, depth, x, pos, s⟩ →
      M.Holds k s →
    M.Kept r ⟨.evaluate, depth, x, pos, s⟩ k) (x : RuleId) (pos : Nat) (s : Session) (k : κ)
    (hunbroken : M.Unbroken r ⟨.apply, depth + 1, x, pos, s⟩) (hs : M.Holds k s) :
    M.Kept r ⟨.apply, depth + 1, x, pos, s⟩ k := by
  let tamed := tame (Task.run r depth .evaluate) fun y q t => (y, q) = (x, pos) →
    M.Unbroken r ⟨.evaluate, depth, x, pos, t⟩
  have hwork : ∀ k', M.Along k (x, pos) k' → ∀ t, M.Holds k' t →
      Ends (tamed x pos) t (fun _ => M.Holds k') fun _ => M.Holds k' :=
    fun k' _ t ht => tame_ends ht fun hallowed => (heval x pos t k' (hallowed rfl) ht).ends
  have hsame : ∀ y q t, Asks (fun work => step work r x pos) (Task.run r depth .evaluate) s y q t →
      tamed y q t = Task.run r depth .evaluate y q t := by
    intro y q t hasks
    refine if_pos fun hkey => ?_
    obtain ⟨rfl, rfl⟩ := Prod.mk.inj hkey
    exact hunbroken.begins (.evaluates hasks)
  have hheeds := step_heeds (r := r) hwork hs (hunbroken _ .refl rfl)
  obtain ⟨hends, hbegins⟩ := hheeds.transfer ((step_attends r x pos s).asks _) hsame
  refine ⟨ends_session.mp hends, fun hbound c' hbegun => ?_⟩
  cases hbegun with
  | evaluates hasks => exact (hbegins hbound _ _ _ hasks).2

theorem applyWithin_kept (M : Manner κ) (r : Recognizer) (depth : Nat) (x : RuleId) (pos : Nat)
    (s : Session) (k : κ) (hunbroken : M.Unbroken r ⟨.apply, depth, x, pos, s⟩) (hs : M.Holds k s) :
    M.Kept r ⟨.apply, depth, x, pos, s⟩ k := by
  induction depth generalizing x pos s k with
  | zero => exact ⟨hs, fun hbound => absurd rfl hbound⟩
  | succ depth ih => exact apply_kept (evaluate_kept ih) x pos s k hunbroken hs

/-- A call in which nothing is broken keeps what is known. -/
theorem kept (hunbroken : M.Unbroken r c) (hs : M.Holds k c.session) : M.Kept r c k := by
  obtain ⟨task, depth, x, pos, s⟩ := c
  cases task with
  | apply => exact applyWithin_kept M r depth x pos s k hunbroken hs
  | evaluate => exact evaluate_kept (applyWithin_kept M r depth) x pos s k hunbroken hs

end Manner

end Packrat
