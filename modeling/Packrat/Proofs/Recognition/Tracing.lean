import Packrat.Proofs.Recognition.Comparison
import Packrat.Proofs.Recognition.Reports
import Packrat.Proofs.Rules.Resolution

/-! Tracing reports what is done, and changes nothing.

`Narrates x x'` compares a recognition `x` that is traced with one that is not. In sessions that are
the same but for their logs both come to the same, and again leave sessions that are the same but
for their logs; and what `x` adds to the log is a report. So it is enough to compare evaluations
(`narrates_comparison`). One that is traced opens its span first, and closes it whichever way the
body ends (`tracedBody_narrates`).

A span closes without a note only at a number that belongs to no rule, or at a bound. Neither is met
where rules refer to rules of the graph, so there the log of a session is a report after any
applications, those that fail among them (`applyAll_traced`). -/
namespace Packrat
variable {α β : Type}

theorem Session.Blind.reported {f : Session → Session} (hf : Blind f) (s : Session) :
    s.Reported (f s) :=
  ⟨[], .nil, by rw [(hf.keeps s).1, List.append_nil]⟩

/-- Nothing is kept of a log. -/
def nothing (_ : Array Event) : Array Event := #[]

theorem nothing_steady : Steady nothing := fun _ _ _ _ => rfl

/-- In sessions that are the same but for their logs `x` does what `x'` does, and reports it unless
it lapses. -/
structure Narrates (x x' : Recognition α) : Prop where
  same : SameBut nothing x x'
  reports : ∀ s, Ends x s (fun _ s' => s.Reported s') fun e s' => e.Lapse ∨ s.Reported s'

namespace Narrates
variable {x x' : Recognition α}

theorem pure (a : α) : Narrates (pure a : Recognition α) (pure a) := ⟨.pure a, fun s => .refl s⟩

theorem throw (e : Stop) : Narrates (throw e : Recognition α) (throw e) :=
  ⟨.throw e, fun s => .inr (.refl s)⟩

theorem modify {g : Session → Session} (hg : Session.Blind g) :
    Narrates (modify g : Recognition PUnit) (modify g) :=
  ⟨.modify hg, hg.reported⟩

theorem grown (rule : String) (pos rounds length : Nat) :
    Narrates (Recognizer.note (.seedGrown rule pos rounds length))
      (Recognizer.note (.seedGrown rule pos rounds length)) :=
  ⟨.record nothing_steady _, fun _ => ⟨[.note (.seedGrown rule pos rounds length)], .grown .nil,
    Array.toList_push⟩⟩

/-- What is added to a report makes a report. -/
theorem after (h : Narrates x x') {s s' : Session} (hs : s.Reported s') :
    Ends x s' (fun _ s'' => s.Reported s'') fun e s'' => e.Lapse ∨ s.Reported s'' :=
  (h.reports s').mono (fun _ _ h => hs.trans h) fun _ _ h => h.imp_right hs.trans

theorem bind {f f' : α → Recognition β} (h : Narrates x x') (hf : ∀ a, Narrates (f a) (f' a)) :
    Narrates (x >>= f) (x' >>= f') := by
  refine ⟨h.same.bind fun a => (hf a).same, fun s => ?_⟩
  rw [ends_bind]
  exact (h.reports s).mono (fun a _ hs' => (hf a).after hs') fun _ _ h => h

/-- What is looked up in the session is not in the log. -/
theorem get {f f' : Session → Recognition β} (hf : ∀ s, f s = f s.unlogged)
    (hf' : ∀ s, f' s = f' s.unlogged) (h : ∀ s, Narrates (f s) (f' s)) :
    Narrates (get >>= f) (get >>= f') :=
  ⟨.get hf hf' fun s => (h s).same, fun s => (h s).reports s⟩

/-- What is caught is reported on as what comes after it is, and a stop is passed on. -/
theorem outcome {f f' : Except Stop α → Recognition β} (h : Narrates x x')
    (hf : ∀ o, Narrates (f o) (f' o)) (hstop : ∀ e s, (f (.error e) s).1 = .error e) :
    Narrates (Recognizer.outcomeOf x >>= f) (Recognizer.outcomeOf x' >>= f') := by
  refine ⟨h.same.outcome fun o => (hf o).same, fun s => ?_⟩
  rw [ends_bind, ends_outcomeOf]
  refine (h.reports s).mono (fun a _ hs' => (hf (.ok a)).after hs') fun e s' he => ?_
  rcases he with he | hs'
  · exact (Ends.of_error (hstop e s')).mono (fun _ _ h => h.elim) fun _ _ h => .inl (h ▸ he)
  · exact (hf (.error e)).after hs'

end Narrates

namespace Recognizer
variable {r : Recognizer} {work work' : Work} {x : RuleId} {pos : Nat}

theorem narrates_comparison : Comparison Narrates where
  pure := .pure
  throw := .throw
  bind := .bind
  get := .get
  modify := .modify
  grown := .grown
  outcome h hf hstop := .outcome h hf fun e s => (hstop e s).1

/-! ### Bodies -/

/-- An evaluation that is traced does what it does otherwise. -/
theorem tracedBody_narrates (hclosed : r.graph.Closed)
    (hwork : ∀ y q, Narrates (work y q) (work' y q)) (x : RuleId) (pos : Nat) :
    Narrates (tracedBody work { r with trace := true } x pos)
      (tracedBody work' { r with trace := false } x pos) := by
  have hbody : Narrates (body work r x pos) (body work' r x pos) :=
    (narrates_comparison.compositional work work').body hwork x pos
  show Narrates (do
    let text ← orStop (r.graph.display x) x
    record (.opened (.apply text pos))
    note (.entered (String.ofList (r.buffer.preview previewLength pos)))
    let outcome ← outcomeOf (body work r x pos)
    (exitNotes outcome).forM note
    record (.closed (.apply text pos))
    ExceptT.mk (pure outcome)) (body work' r x pos)
  cases hfound : r.graph.rule? x with
  | none =>
    have hrule : r.graph.rule x = .error (.dangling x) := by rw [RuleGraph.rule, hfound]
    have hdisplay : r.graph.display x = .error (.dangling x) := by
      rw [RuleGraph.display, hrule]
      rfl
    have hthrow : body work' r x pos = throw (.dangling x) := by
      rw [body, hrule]
      rfl
    rw [hdisplay, hthrow]
    exact .throw (.dangling x)
  | some found =>
    obtain ⟨text, htext⟩ := RuleGraph.display_ok hfound fun y hy =>
      RuleGraph.contains_of_refers hclosed ⟨found, hfound, hy⟩
    rw [htext, show orStop (.ok text) x = (pure text : Recognition String) from rfl, pure_bind]
    simp only [leave_span]
    refine ⟨fun s t hst => ?_, fun s => ?_⟩
    · have hopen : ((s.record (.opened (.apply text pos))).record
          (.note (.entered (String.ofList (r.buffer.preview previewLength pos))))).unlogged =
          t.unlogged := hst
      obtain ⟨ho, hs'⟩ := hbody.same _ t hopen
      exact ⟨ho, (Session.foldl_record _ _).trans hs'⟩
    · rw [ends_bind, ends_record, ends_bind, ends_note, ends_bind, ends_outcomeOf]
      refine (hbody.reports _).mono (fun a s' hs' => ?_) fun e s' he => ?_
      · exact hs'.span (show (Note.left a.matched a.length).IsExit from trivial)
      · cases e with
        | error e =>
          exact .inr ((he.resolve_left id).span (show (Note.leftWith e).IsExit from trivial))
        | dangling | exhausted => exact .inl trivial

/-! ### Applications -/

theorem tick_narrates (r : Recognizer) : Narrates (tick r) (tick r) := by
  have hreported : ∀ s : Session, s.Reported s.counted := fun s => .refl s
  exact ⟨tick_sameBut nothing r, fun s => (tick_ends r s).mono (fun _ _ h => h ▸ hreported s)
    fun _ _ h => .inr (h.1 ▸ hreported s)⟩

/-- An application that is traced does what it does otherwise. -/
theorem apply_narrates (hclosed : r.graph.Closed) (x : RuleId) (pos : Nat) :
    Narrates (apply { r with trace := true } x pos) (apply { r with trace := false } x pos) := by
  have hakin : Akin Narrates { r with trace := true } { r with trace := false } :=
    { graph := rfl
      buffer := rfl
      tick := tick_narrates r
      body := fun hwork => tracedBody_narrates (r := r) hclosed hwork }
  exact apply_compares narrates_comparison hakin x pos

/-! ### Sessions -/

section
variable (hclosed : r.graph.Closed)
include hclosed

/-- An application meets no number that belongs to no rule, and no bound. -/
theorem apply_no_lapse {s : Session} (hs : r.Reachable s) {e : Stop}
    (he : (r.apply x pos s).1 = .error e) : ¬ e.Lapse := by
  by_cases hx : r.graph.contains x = true
  · have hpermitted := ((apply_upholds r x pos s hs.disciplined).of_stop he).1
    intro hlapse
    cases e with
    | error e => exact hlapse
    | dangling i => exact hpermitted.closed hx (hclosed.closedFrom x) i rfl
    | exhausted => exact hpermitted.bounded rfl
  · rw [apply, if_neg hx] at he
    cases he
    exact id

theorem apply_reported {s : Session} (hs : Reachable { r with trace := true } s) (x : RuleId)
    (pos : Nat) : s.Reported (apply { r with trace := true } x pos s).2 := by
  have hlapse : ∀ e, (apply { r with trace := true } x pos s).1 = .error e → ¬ e.Lapse := fun _ =>
    apply_no_lapse (r := { r with trace := true }) hclosed hs
  obtain ⟨a, s', hrun, hreported⟩ | ⟨e, s', hrun, hreported⟩ :=
    ((apply_narrates hclosed x pos).reports s).cases
  · rw [hrun]
    exact hreported
  · rw [hrun] at hlapse ⊢
    exact hreported.resolve_left (hlapse e rfl)

theorem sessionAfter_traced (calls : List (RuleId × Nat)) {s t : Session}
    (hs : Reachable { r with trace := true } s) (hst : s.unlogged = t.unlogged) :
    applyAll { r with trace := true } calls s = applyAll { r with trace := false } calls t ∧
      (sessionAfter { r with trace := true } calls s).unlogged =
        (sessionAfter { r with trace := false } calls t).unlogged ∧
      s.Reported (sessionAfter { r with trace := true } calls s) := by
  induction calls generalizing s t with
  | nil => exact ⟨rfl, hst, .refl s⟩
  | cons call rest ih =>
    obtain ⟨hanswer, hnext⟩ := (apply_narrates hclosed call.1 call.2).same s t hst
    obtain ⟨hanswers, hafter, hreported⟩ := ih (.apply call.1 call.2 hs) hnext
    exact ⟨congrArg₂ List.cons hanswer hanswers, hafter,
      (apply_reported hclosed hs call.1 call.2).trans hreported⟩

/-- Applications in one session come to the same whether they are traced or not, errors among them,
with as many steps and as much remembered after each. Where they are traced, the log after each is a
report: each span is closed when it is the innermost that is open, with the one note of its
beginning first in it and the one of its end last. -/
theorem applyAll_traced (calls : List (RuleId × Nat)) :
    let traced : Recognizer := { r with trace := true }
    let untraced : Recognizer := { r with trace := false }
    traced.applyAll calls {} = untraced.applyAll calls {} ∧
    ∀ i, let s := traced.sessionAfter (calls.take i) {}
      let t := untraced.sessionAfter (calls.take i) {}
      s.steps = t.steps ∧ s.memo.size = t.memo.size ∧ s.unlogged = t.unlogged ∧
        Report s.log.toList ∧ unwind [] s.log.toList = some [] := by
  intro traced untraced
  refine ⟨(sessionAfter_traced hclosed calls .start rfl).1, fun i => ?_⟩
  intro s t
  obtain ⟨_, hsame, events, hreport, hlog⟩ := sessionAfter_traced hclosed (calls.take i) .start rfl
  rw [show s.log.toList = events from hlog]
  have hsteps : s.unlogged.steps = t.unlogged.steps := congrArg Session.steps hsame
  have hsize : s.unlogged.memo.size = t.unlogged.memo.size := congrArg (·.memo.size) hsame
  exact ⟨hsteps, hsize, hsame, hreport, hreport.unwind []⟩

end

set_option maxRecDepth 20000 in
/-- The first application ends with an error in a round of growth, three evaluations deep. -/
theorem applyAll_traced_error :
    let graph : RuleGraph :=
  ⟨#[⟨"list", .choice [⟨1⟩, ⟨2⟩], {}⟩, ⟨"more", .sequence [⟨0⟩, ⟨3⟩], {}⟩,
      ⟨"x", .literal "x", {}⟩, ⟨"<forward>", .reference none, {}⟩]⟩
    let r : Recognizer := { graph, buffer := .ofList ['x'] }
    let traced : Recognizer := { r with trace := true }
    let untraced : Recognizer := { r with trace := false }
    let calls : List (RuleId × Nat) := [(⟨0⟩, 0), (⟨2⟩, 0)]
    let s := traced.sessionAfter (calls.take 1) {}
    r.graph.Closed ∧
      (traced.applyAll calls {})[0]? = some (.error (.error (.unresolvedReference ⟨3⟩))) ∧
      s.log.size = 24 ∧ traced.applyAll calls {} = untraced.applyAll calls {} ∧
      s.memo.size = (untraced.sessionAfter (calls.take 1) {}).memo.size ∧ Report s.log.toList ∧
      unwind [] s.log.toList = some [] := by
  intro graph r traced untraced calls s
  have hclosed : r.graph.Closed := by decide
  have herror : (traced.applyAll calls {})[0]? =
      some (.error (.error (.unresolvedReference ⟨3⟩))) := by cbv
  have hlog : (traced.sessionAfter (calls.take 1) {}).log.size = 24 := by cbv
  obtain ⟨hanswers, hafter⟩ := applyAll_traced hclosed calls
  obtain ⟨_, hsize, _, hreport, hunwind⟩ := hafter 1
  exact ⟨hclosed, herror, hlog, hanswers, hsize, hreport, hunwind⟩

end Recognizer

end Packrat
