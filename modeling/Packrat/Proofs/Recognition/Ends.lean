import Packrat.Recognition.Apply

/-! How a recognition ends.

`Ends x s Q E` says that the recognition `x`, begun in the session `s`, ends with an
answer and a session that satisfy `Q`, or stops with a reason and a session that satisfy
`E`. Each way to build a recognition has one equation, so a straight piece of work is
run by rewriting with them; a part that is applied elsewhere is replaced by what is
known of it (`Ends.mono`).

`Upholds I E x Q` is the same for work that keeps a property `I` of the session
whichever way it ends. `Reaches P x Q` is the same for work that is begun in any session with
`P`, where it does not matter what is left if a bound is met or a number belongs to no
rule (`Stop.Lapse`). -/
namespace Packrat
variable {α β : Type}

def Ends (x : Recognition α) (s : Session) (Q : α → Session → Prop)
    (E : Stop → Session → Prop) : Prop :=
  match x s with
  | (.ok a, s') => Q a s'
  | (.error e, s') => E e s'

theorem ends_session {w : Recognition α} {s : Session} {I : Session → Prop} :
    Ends w s (fun _ => I) (fun _ => I) ↔ I (w s).2 := by
  rw [Ends]
  rcases w s with ⟨o, s'⟩
  cases o <;> exact Iff.rfl

theorem run_bind (x : Recognition α) (f : α → Recognition β) (s : Session) :
    (x >>= f) s = match x s with
      | (.ok a, s') => f a s'
      | (.error e, s') => (.error e, s') := by
  simp only [bind, ExceptT.bind, ExceptT.mk, StateT.bind]
  rcases x s with ⟨o, s'⟩
  cases o <;> rfl

section Equations
variable {s : Session} {Q : α → Session → Prop} {E : Stop → Session → Prop}

@[simp] theorem ends_pure (a : α) : Ends (pure a) s Q E ↔ Q a s := Iff.rfl

@[simp] theorem ends_throw (e : Stop) : Ends (throw e : Recognition α) s Q E ↔ E e s := Iff.rfl

@[simp] theorem ends_result (o : Except Stop α) :
    Ends (ExceptT.mk (pure o)) s Q E ↔ (match o with | .ok a => Q a s | .error e => E e s) := by
  cases o <;> exact Iff.rfl

@[simp] theorem ends_bind (x : Recognition β) (f : β → Recognition α) :
    Ends (x >>= f) s Q E ↔ Ends x s (fun b s' => Ends (f b) s' Q E) E := by
  simp only [Ends, bind, ExceptT.bind, ExceptT.mk, StateT.bind]
  rcases x s with ⟨o, s'⟩
  cases o <;> exact Iff.rfl

@[simp] theorem ends_map (g : β → α) (x : Recognition β) :
    Ends (g <$> x) s Q E ↔ Ends x s (fun b s' => Q (g b) s') E := by
  rw [map_eq_pure_bind, ends_bind]
  simp only [ends_pure]

theorem Ends.mono {x : Recognition α} {Q' : α → Session → Prop} {E' : Stop → Session → Prop}
    (h : Ends x s Q E) (hQ : ∀ a s', Q a s' → Q' a s') (hE : ∀ e s', E e s' → E' e s') :
    Ends x s Q' E' := by
  revert h
  simp only [Ends]
  rcases x s with ⟨o, s'⟩
  cases o with
  | ok a => exact hQ a s'
  | error e => exact hE e s'

theorem Ends.and {x : Recognition α} {Q' : α → Session → Prop} {E' : Stop → Session → Prop}
    (h : Ends x s Q E) (h' : Ends x s Q' E') :
    Ends x s (fun a s' => Q a s' ∧ Q' a s') (fun e s' => E e s' ∧ E' e s') := by
  revert h h'
  simp only [Ends]
  rcases x s with ⟨o, s'⟩
  cases o <;> exact And.intro

/-- What a stop leaves behind does not matter. -/
theorem Ends.answers {x : Recognition α} {Q' : α → Session → Prop} (h : Ends x s Q E)
    (hQ : ∀ a s', Q a s' → Q' a s') : Ends x s Q' fun _ _ => True :=
  h.mono hQ fun _ _ _ => True.intro

theorem Ends.trivial {x : Recognition α} : Ends x s (fun _ _ => True) fun _ _ => True := by
  rw [Ends]
  split <;> exact True.intro

/-- The two ways in which a recognition ends. -/
theorem Ends.cases {x : Recognition α} (h : Ends x s Q E) :
    (∃ a s', x s = (.ok a, s') ∧ Q a s') ∨ ∃ e s', x s = (.error e, s') ∧ E e s' := by
  rw [Ends] at h
  rcases hrun : x s with ⟨o, s'⟩
  rw [hrun] at h
  cases o with
  | ok a => exact .inl ⟨a, s', rfl, h⟩
  | error e => exact .inr ⟨e, s', rfl, h⟩

theorem Ends.of_ok {x : Recognition α} (h : Ends x s Q E) {a : α} (ha : (x s).1 = .ok a) :
    Q a (x s).2 := by
  obtain ⟨b, s', hrun, hb⟩ | ⟨e, s', hrun, _⟩ := h.cases
  · rw [hrun] at ha ⊢
    cases ha
    exact hb
  · rw [hrun] at ha
    cases ha

theorem Ends.of_stop {x : Recognition α} (h : Ends x s Q E) {e : Stop} (he : (x s).1 = .error e) :
    E e (x s).2 := by
  obtain ⟨a, s', hrun, _⟩ | ⟨e', s', hrun, hstop⟩ := h.cases
  · rw [hrun] at he
    cases he
  · rw [hrun] at he ⊢
    cases he
    exact hstop

/-- What is shown of each way in which a recognition may end. -/
theorem Ends.of_run {x : Recognition α} (hok : ∀ a s', x s = (.ok a, s') → Q a s')
    (herror : ∀ e s', x s = (.error e, s') → E e s') : Ends x s Q E := by
  rw [Ends]
  rcases hrun : x s with ⟨o, s'⟩
  cases o with
  | ok a => exact hok a s' hrun
  | error e => exact herror e s' hrun

theorem Ends.run {x : Recognition α} {ended : Except Stop α × Session}
    (h : Ends x s (fun a s' => (.ok a, s') = ended) fun e s' => (.error e, s') = ended) :
    x s = ended := by
  obtain ⟨a, s', hrun, hended⟩ | ⟨e, s', hrun, hended⟩ := h.cases
  · exact hrun.trans hended
  · exact hrun.trans hended

/-- Work that only stops for a reason has it as its outcome. -/
theorem Ends.stops {x : Recognition α} {e : Stop}
    (h : Ends x s (fun _ _ => False) fun e' _ => e' = e) : (x s).1 = .error e := by
  obtain ⟨_, _, _, hfalse⟩ | ⟨e', s', hrun, rfl⟩ := h.cases
  · exact hfalse.elim
  · rw [hrun]

theorem Ends.of_error {x : Recognition α} {e : Stop} (h : (x s).1 = .error e) :
    Ends x s (fun _ _ => False) fun e' _ => e' = e := by
  rw [Ends]
  rcases hx : x s with ⟨o, s'⟩
  rw [hx] at h
  cases h
  rfl

@[simp] theorem ends_outcomeOf (x : Recognition β) {Q : Except Stop β → Session → Prop} :
    Ends (Recognizer.outcomeOf x) s Q E ↔
      Ends x s (fun b s' => Q (.ok b) s') (fun e s' => Q (.error e) s') := by
  simp only [Ends, Recognizer.outcomeOf]
  rcases x s with ⟨o, s'⟩
  cases o <;> exact Iff.rfl

end Equations

section Sessions
variable {s : Session} {E : Stop → Session → Prop}

@[simp] theorem ends_get {Q : Session → Session → Prop} :
    Ends (get : Recognition Session) s Q E ↔ Q s s := Iff.rfl

@[simp] theorem ends_modify (f : Session → Session) {Q : PUnit → Session → Prop} :
    Ends (modify f : Recognition PUnit) s Q E ↔ Q ⟨⟩ (f s) := Iff.rfl

@[simp] theorem ends_note (n : Note) {Q : Unit → Session → Prop} :
    Ends (Recognizer.note n) s Q E ↔ Q () (s.record (.note n)) := Iff.rfl

@[simp] theorem ends_record (e : Event) {Q : Unit → Session → Prop} :
    Ends (Recognizer.record e) s Q E ↔ Q () (s.record e) := Iff.rfl

end Sessions

theorem Recognizer.orStop_rule {r : Recognizer} {x : RuleId} {found : Rule}
    (h : r.graph.rule? x = some found) : orStop (r.graph.rule x) x = pure found := by
  rw [RuleGraph.rule, h]
  rfl

/-- The work keeps `I` of the session, ends only with answers of which `Q` holds, and stops only for
reasons of which `E` holds. -/
def Upholds (I : Session → Prop) (E : Stop → Prop) (x : Recognition α) (Q : α → Prop) : Prop :=
  ∀ s, I s → Ends x s (fun a s' => Q a ∧ I s') (fun e s' => E e ∧ I s')

namespace Upholds
variable {I : Session → Prop} {E E' : Stop → Prop} {x : Recognition α} {Q Q' : α → Prop}

theorem mono (h : Upholds I E x Q) (hQ : ∀ a, Q a → Q' a) (hE : ∀ e, E e → E' e) :
    Upholds I E' x Q' := fun s hs =>
  (h s hs).mono (fun _ _ h => ⟨hQ _ h.1, h.2⟩) (fun _ _ h => ⟨hE _ h.1, h.2⟩)

theorem pure {a : α} (h : Q a) : Upholds I E (pure a) Q := fun _ hs => ⟨h, hs⟩

theorem throw {e : Stop} (h : E e) : Upholds I E (throw e) Q := fun _ hs => ⟨h, hs⟩

theorem bind {f : α → Recognition β} {R : β → Prop} (hx : Upholds I E x Q)
    (hf : ∀ a, Q a → Upholds I E (f a) R) : Upholds I E (x >>= f) R := by
  intro s hs
  rw [ends_bind]
  exact (hx s hs).mono (fun a s' h => hf a h.1 s' h.2) (fun _ _ h => h)

/-- Whichever way the work ends, the session has what it keeps. -/
theorem session {s : Session} (h : Upholds I E x Q) (hs : I s) : I (x s).2 := by
  obtain ⟨a, s', hrun, _, hkept⟩ | ⟨e, s', hrun, _, hkept⟩ := (h s hs).cases
  · rw [hrun]
    exact hkept
  · rw [hrun]
    exact hkept

end Upholds

/-- A stop that is no error of the rules or the input. -/
def Stop.Lapse : Stop → Prop
  | .error _ => False
  | .dangling _ | .exhausted => True

def Reaches (P : Session → Prop) (x : Recognition α) (Q : α → Session → Prop) : Prop :=
  ∀ s, P s → Ends x s Q fun e _ => e.Lapse

namespace Reaches
variable {P P' : Session → Prop} {x : Recognition α} {Q Q' : α → Session → Prop}

theorem mono (h : Reaches P x Q) (hP : ∀ s, P' s → P s) (hQ : ∀ a s, Q a s → Q' a s) :
    Reaches P' x Q' :=
  fun s hs => (h s (hP s hs)).mono hQ fun _ _ he => he

theorem pure {a : α} (h : ∀ s, P s → Q a s) : Reaches P (pure a) Q := h

theorem lapse {e : Stop} (h : e.Lapse) : Reaches P (throw e) Q := fun _ _ => h

theorem bind {f : α → Recognition β} {R : β → Session → Prop} (hx : Reaches P x Q)
    (hf : ∀ a, Reaches (Q a) (f a) R) : Reaches P (x >>= f) R := by
  intro s hs
  rw [ends_bind]
  exact (hx s hs).mono (fun a s' h => hf a s' h) fun _ _ h => h

theorem modify {f : Session → Session} {Q : PUnit → Session → Prop} (h : ∀ s, P s → Q ⟨⟩ (f s)) :
    Reaches P (modify f) Q := h

end Reaches

end Packrat
