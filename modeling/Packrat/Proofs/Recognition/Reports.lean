import Packrat.Proofs.Recognition.Ends

/-! Reports of recognitions.

A report is put together in one way only (`Report`): of notes that a seed has grown, and of spans.
The first thing in the span of an evaluation is the one note that says that it is entered, the last
thing the one note that says how it is left, and what is between them is a report again. So the
spans are nested, and each is closed when all that were opened after it are (`Report.unwind`). -/
namespace Packrat

/-- The note says how an evaluation has ended. -/
def Note.IsExit : Note → Prop
  | .left .. | .leftWith _ => True
  | _ => False

/-- What is reported of evaluations, one after the other and inside of each other. -/
inductive Report : List Event → Prop where
  | nil : Report []
  | grown {rule : String} {pos rounds length : Nat} {events : List Event} : Report events →
    Report (.note (.seedGrown rule pos rounds length) :: events)
  | span {rule input : String} {pos : Nat} {exit : Note}
      {inside events : List Event} : exit.IsExit → Report inside →
    Report events →
    Report ((Span.apply rule pos).around (.note (.entered input) :: inside ++ [.note exit]) ++
      events)

/-- Opens and closes spans in the order of the events, with the innermost that is open in front.
None is left of spans that are closed out of order. -/
def unwind : List Span → List Event → Option (List Span)
  | spans, [] => some spans
  | spans, .opened s :: rest => unwind (s :: spans) rest
  | [], .closed _ :: _ => none
  | top :: spans, .closed s :: rest => if s = top then unwind spans rest else none
  | spans, .note _ :: rest => unwind spans rest

theorem unwind_append (spans : List Span) (events more : List Event) :
    unwind spans (events ++ more) = (unwind spans events).bind (unwind · more) := by
  fun_induction unwind spans events with
  | case1 spans => rfl
  | case2 spans s rest ih => exact ih
  | case3 => rfl
  | case4 spans s rest ih =>
    rw [List.cons_append, unwind, if_pos rfl]
    exact ih
  | case5 top spans s rest hne =>
    rw [List.cons_append, unwind, if_neg hne]
    rfl
  | case6 spans n rest ih => exact ih

namespace Report
variable {events more : List Event}

theorem append (h : Report events) (h' : Report more) : Report (events ++ more) := by
  induction h with
  | nil => exact h'
  | grown _ ih => exact .grown ih
  | span hexit hinside _ _ ih =>
    rw [List.append_assoc]
    exact .span hexit hinside ih

/-- Each span of a report is closed when it is the innermost that is open, and none is left open. -/
theorem unwind (h : Report events) (spans : List Span) : unwind spans events = some spans := by
  induction h generalizing spans with
  | nil => rfl
  | grown _ ih => exact ih spans
  | @span rule input pos exit inside events hexit _ _ hinside hevents =>
    rw [unwind_append, Span.around]
    show (Packrat.unwind (.apply rule pos :: spans)
        ((inside ++ [.note exit]) ++ [.closed (.apply rule pos)])).bind _ = _
    rw [unwind_append, unwind_append, hinside]
    simp only [Option.bind_some, Packrat.unwind, if_true]
    exact hevents spans

end Report

/-! ### The log of a session -/

namespace Session

/-- What the later session has in its log beyond this one is a report. -/
def Reported (s s' : Session) : Prop :=
  ∃ events, Report events ∧ s'.log.toList = s.log.toList ++ events

theorem Reported.refl (s : Session) : s.Reported s := ⟨[], .nil, (List.append_nil _).symm⟩

theorem Reported.trans {s s' s'' : Session} (h : s.Reported s') (h' : s'.Reported s'') :
    s.Reported s'' := by
  obtain ⟨events, hevents, hlog⟩ := h
  obtain ⟨more, hmore, hlog'⟩ := h'
  exact ⟨events ++ more, hevents.append hmore, by rw [hlog', hlog, List.append_assoc]⟩

/-- An evaluation that was reported on is a report in its span. -/
theorem Reported.span {s s' : Session} {rule input : String} {pos : Nat} {exit : Note}
    (hexit : exit.IsExit)
    (h : ((s.record (.opened (.apply rule pos))).record (.note (.entered input))).Reported s') :
    s.Reported ((s'.record (.note exit)).record (.closed (.apply rule pos))) := by
  obtain ⟨inside, hinside, hlog⟩ := h
  refine ⟨_, @Report.span rule input pos _ _ _ hexit hinside .nil, ?_⟩
  simp only [record, Array.toList_push] at hlog ⊢
  simp [hlog, Span.around]

end Session

end Packrat
