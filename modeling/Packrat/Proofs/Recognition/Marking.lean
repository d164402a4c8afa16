import Packrat.Proofs.Recognition.Comparison

/-! Applications that mark the evaluations that they make.

A report of an evaluation names the rule as it is displayed, and different rules may be displayed
alike; and nothing is reported that is not traced. So that evaluations can be counted,
`markedWithin` writes into the log which rule's body it evaluates at which position, each time it
evaluates one. But for the marks it is the application that it marks (`markedWithin_sameBut`), and
so are whole sessions (`unmarked_markedAfter`). -/
namespace Packrat

/-- The mark of an evaluation of a rule's body at a position. No application opens such a span. -/
def Event.mark (k : Key) : Event := .opened (.evaluate k.1 k.2)

def Event.marked? : Event → Option Key
  | .opened (.evaluate x pos) => some (x, pos)
  | _ => none

/-- The log without marks. -/
def dropMarks (log : Array Event) : Array Event := log.filter (·.marked?.isNone)

theorem dropMarks_steady : Steady dropMarks := by
  intro l l' e h
  simp only [dropMarks, Array.filter_push] at h ⊢
  split <;> rw [h]

namespace Session

/-- The rules whose bodies were evaluated, each with the position, in the order in which they were
marked. -/
def evaluated (s : Session) : List Key := s.log.toList.filterMap Event.marked?

def unmarked (s : Session) : Session := s.sift dropMarks

theorem unmarked_mark (s : Session) (k : Key) : (s.record (.mark k)).unmarked = s.unmarked := by
  have hlog : dropMarks (s.record (.mark k)).log = dropMarks s.log := by
    simp [dropMarks, record, Event.mark, Event.marked?]
  rw [unmarked, sift, hlog]
  rfl

end Session

theorem SameBut.report {α : Type} {keep : Array Event → Array Event} (hkeep : Steady keep)
    (o : Except Stop α) (events : List Event) :
    SameBut keep (fun s => (o, events.foldl (·.record ·) s) : Recognition α) fun s =>
      (o, events.foldl (·.record ·) s) := by
  intro s t hst
  refine ⟨rfl, ?_⟩
  induction events generalizing s t with
  | nil => exact hst
  | cons e rest ih => exact ih _ _ (record hkeep e s t hst).2

namespace Recognizer
variable {r : Recognizer} {work work' : Work} {x : RuleId} {pos : Nat}

def markedBody (work : Work) (r : Recognizer) (x : RuleId) (pos : Nat) : Recognition Answer := do
  record (.mark (x, pos))
  tracedBody work r x pos

/-- Applies a rule at a position as `applyWithin` does, and marks each evaluation of a body. -/
def markedWithin (r : Recognizer) : Nat → RuleId → Nat → Recognition Answer
  | 0, _, _ => throw .exhausted
  | depth + 1, x, pos => step (markedBody (r.markedWithin depth) r) r x pos

/-- Applies a rule at a position as `apply` does, and marks each evaluation of a body. -/
def markedApply (r : Recognizer) (x : RuleId) (pos : Nat) : Recognition Answer :=
  if r.graph.contains x then r.markedWithin r.depthBound x pos
  else throw (.error (.unknownRule x))

/-- The session that applications leave behind, one after the other, where each evaluation of a body
is marked. -/
def markedAfter (r : Recognizer) : List (RuleId × Nat) → Session → Session
  | [], s => s
  | (x, pos) :: rest, s => r.markedAfter rest (r.markedApply x pos s).2

theorem tracedBody_sameBut {keep : Array Event → Array Event} (hkeep : Steady keep)
    (hwork : ∀ y q, SameBut keep (work y q) (work' y q)) (x : RuleId) (pos : Nat) :
    SameBut keep (tracedBody work r x pos) (tracedBody work' r x pos) :=
  ((sameBut_comparison hkeep).compositional work work').tracedBody hwork (fun e => .record hkeep e)
    (fun _ events hw => .outcome hw fun o => .report hkeep o (events o)) x pos

theorem markedBody_sameBut (hwork : ∀ y q, SameBut dropMarks (work y q) (work' y q)) (x : RuleId)
    (pos : Nat) :
    SameBut dropMarks (markedBody work r x pos) (tracedBody work' r x pos) := fun s t hst =>
  tracedBody_sameBut dropMarks_steady hwork x pos _ t ((s.unmarked_mark (x, pos)).trans hst)

theorem markedWithin_sameBut (r : Recognizer) (depth : Nat) (x : RuleId) (pos : Nat) :
    SameBut dropMarks (r.markedWithin depth x pos) (r.applyWithin depth x pos) := by
  induction depth generalizing x pos with
  | zero => exact .throw _
  | succ depth ih =>
    exact step_compares (sameBut_comparison dropMarks_steady) (markedBody_sameBut ih)
      (tick_sameBut dropMarks r) rfl rfl x pos

theorem markedApply_sameBut (r : Recognizer) (x : RuleId) (pos : Nat) :
    SameBut dropMarks (r.markedApply x pos) (r.apply x pos) := by
  rw [markedApply, apply]
  split
  · exact markedWithin_sameBut r _ x pos
  · exact .throw _

/-- Marks are all that tells a session with marks from one without. -/
theorem unmarked_markedAfter (r : Recognizer) (calls : List (RuleId × Nat)) {s t : Session}
    (hst : s.unmarked = t.unmarked) :
    (r.markedAfter calls s).unmarked = (r.sessionAfter calls t).unmarked := by
  induction calls generalizing s t with
  | nil => exact hst
  | cons call rest ih => exact ih (markedApply_sameBut r call.1 call.2 s t hst).2

end Recognizer

end Packrat
