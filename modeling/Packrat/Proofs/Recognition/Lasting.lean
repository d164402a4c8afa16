import Mathlib
import Packrat.Proofs.Recognition.Fairness
import Packrat.Proofs.Recognition.Transparency

/-! Answers last: what was answered once is answered ever after.

Between applications nothing is under way, and then what has been answered is remembered
for good (`apply_leaves`). No head that is made later has such an entry on offer or sees it
written, for it belongs to what its anchor found settled (`Scene.settled`); so no growth and
no error changes it (`final_stays`), and whatever is applied in a session agrees
(`applyAll_lasts`).

An error lasts as well if its application is plain: nothing is remembered of it, and it comes up
again each time, whatever cycles other applications go through (`error_lasts`). The error of a rule
that grows does not. What was grown before is answered for good, so the same application answers
from then on (`error_gives_way`). -/
namespace Packrat

namespace Disciplined
variable {r : Recognizer} {s : Session} {settled : Key → Answer → Prop} {x : RuleId} {pos : Nat}

/-! ### Between applications -/

theorem frames_nil (d : Disciplined r { settled } s) : s.frames = [] := by
  have h : s.frames.map Frame.key = [] := d.tracked.frames_eq
  exact List.map_eq_nil_iff.mp h

theorem not_growing (d : Disciplined r { settled } s) (pos : Nat) : s.growing[pos]? = none :=
  d.tracked.growing_eq pos

theorem not_inProgress (d : Disciplined r { settled } s) (k : Key) (number : Nat) :
    s.memo[k]? ≠ some (.inProgress number) := by
  intro h
  obtain ⟨a, ha, _⟩ := d.remembered.underWay h
  cases ha

theorem not_anchorUnderWay (d : Disciplined r { settled } s) (id : HeadId) :
    s.anchorUnderWay id = false := by
  rw [Bool.eq_false_iff, ne_eq, anchorUnderWay_iff, d.frames_nil]
  rintro ⟨f, hf, _⟩
  cases hf

/-- What an application leaves behind is final, as no anchor is under way. -/
theorem final_of_leaves (d : Disciplined r { settled } s) {a : Answer} (h : s.Leaves x pos a) :
    s.memo[(x, pos)]? = some (.final a) := by
  rcases h with h | ⟨id, _, hunder⟩
  · exact h
  · cases (d.not_anchorUnderWay id).symm.trans hunder

/-- All that has been answered for good is settled. -/
theorem settle (d : Disciplined r {} s) :
    Disciplined r { settled := fun k a => s.memo[k]? = some (.final a) } s := by
  have hguarded : ∀ id k, ¬ s.Anchored [] id k := by
    rintro id k (⟨f, hf, _⟩ | ⟨a, ha, _⟩)
    · rw [d.frames_nil] at hf
      cases hf
    · cases ha
  exact {
    tracked := { d.tracked with
      guarded := fun _ _ id h _ hanchored => absurd hanchored (hguarded id h.key)
      settled := fun _ _ _ => List.not_mem_nil }
    remembered := { d.remembered with settled := fun _ _ h => h } }

end Disciplined

namespace Recognizer
variable {r : Recognizer} {eval : RuleId → Nat → Recognition Answer} {s : Session} {x : RuleId}
  {pos d : Nat}

/-- An application between others leaves its answer for good. -/
theorem step_leaves (heval : r.Evaluates eval d) (hcost : r.cost {} pos < d + 1)
    (dis : Disciplined r {} s) :
    Ends (step eval r x pos) s (fun a s' => s'.memo[(x, pos)]? = some (.final a)) fun _ s' =>
      r.stepLimit = none → s'.LeavesFailed x pos := by
  have hfree : ¬ ({} : Scene).Reserved [] (x, pos) := by
    rintro (h | ⟨_, h⟩)
    · cases h
    · exact h
  have hfresh : ∀ {t : Session}, Disciplined r {} t →
      Ends (applyFresh eval r x pos) t (fun a s' => s'.memo[(x, pos)]? = some (.final a))
        fun _ s' => r.stepLimit = none → s'.LeavesFailed x pos := by
    intro t dis'
    have hends := applyFresh_ends (c := {}) heval (.start _ pos) hcost dis' hfree
      (not_eligible (dis'.not_growing pos))
    exact hends.mono (fun a s' h => h.2.1.final_of_leaves h.2.2) fun e s' h _ => h.2.2
  have dis' : Disciplined r {} s.counted := dis.step
  have hlimited : Ends (tick r) s (fun _ s' => s' = s.counted) fun _ s' =>
      r.stepLimit = none → s'.LeavesFailed x pos :=
    (tick_ends r s).mono (fun _ _ h => h) fun _ _ h hnone => absurd hnone h.2
  rw [step, ends_bind]
  refine hlimited.mono ?_ fun _ _ h => h
  rintro _ _ rfl
  rw [ends_bind, ends_get, if_neg (not_eligible (dis'.not_growing pos)), ends_bind, ends_get]
  cases hentry : s.counted.remembered? x pos with
  | none => exact hfresh dis'
  | some e =>
    cases e with
    | final a => exact hentry
    | inProgress number => exact absurd hentry (dis'.not_inProgress (x, pos) number)
    | involved seed id =>
      dsimp only
      rw [ends_bind, ends_get, dis'.not_anchorUnderWay id, if_neg Bool.false_ne_true,
        ends_bind, ends_get,
        Session.growsAt, dis'.not_growing pos, if_neg (by simp), ends_bind, ends_modify]
      exact hfresh (dis'.dropEntry hfree)

/-- How an application between others leaves its own entry. -/
theorem apply_leaves (dis : Disciplined r {} s) (hx : r.graph.contains x = true) :
    Ends (r.apply x pos) s (fun a s' => s'.memo[(x, pos)]? = some (.final a)) fun _ s' =>
      r.stepLimit = none → s'.LeavesFailed x pos := by
  have hcost := cost_start_lt (r := r) pos
  rw [apply, if_pos hx]
  cases hbound : r.depthBound with
  | zero => exact absurd (hbound ▸ hcost) (Nat.not_lt_zero _)
  | succ d => exact step_leaves (applyWithin_settles r d).tracedBody (hbound ▸ hcost) dis

theorem contains_of_apply {a : Answer} (h : (r.apply x pos s).1 = .ok a) :
    r.graph.contains x = true := by
  by_cases hx : r.graph.contains x = true
  · exact hx
  · rw [apply, if_neg hx] at h
    cases h

/-- An answer is remembered for good. -/
theorem final_of_apply (dis : Disciplined r {} s) {a : Answer} (h : (r.apply x pos s).1 = .ok a) :
    (r.apply x pos s).2.memo[(x, pos)]? = some (.final a) :=
  (apply_leaves dis (contains_of_apply h)).of_ok h

/-- Nothing that is applied later changes or forgets an answer. -/
theorem final_stays (dis : Disciplined r {} s) {k : Key} {a : Answer}
    (h : s.memo[k]? = some (.final a)) (x : RuleId) (pos : Nat) :
    (r.apply x pos s).2.memo[k]? = some (.final a) :=
  ((apply_upholds r x pos).session dis.settle).remembered.settled k a h

/-- Without a limit on steps an answer is given again. -/
theorem apply_final (hlimit : r.stepLimit = none) (dis : Disciplined r {} s)
    (hx : r.graph.contains x = true) {a : Answer} (h : s.memo[(x, pos)]? = some (.final a)) :
    (r.apply x pos s).1 = .ok a := by
  have hcost := cost_start_lt (r := r) pos
  rw [apply, if_pos hx]
  cases hbound : r.depthBound with
  | zero => exact absurd (hbound ▸ hcost) (Nat.not_lt_zero _)
  | succ d =>
    have hends : Ends (r.applyWithin (d + 1) x pos) s (fun b _ => b = a) fun _ _ => False :=
      (ends_final hlimit (not_eligible (dis.not_growing pos)) h).mpr rfl
    obtain ⟨b, s', hrun, rfl⟩ | ⟨_, _, _, hfalse⟩ := hends.cases
    · rw [hrun]
    · exact hfalse.elim

/-! ### Whole sessions -/

/-- The session that applications, one after the other, leave behind. -/
def sessionAfter (r : Recognizer) : List (RuleId × Nat) → Session → Session
  | [], s => s
  | (x, pos) :: rest, s => r.sessionAfter rest (r.apply x pos s).2

theorem sessionAfter_append (r : Recognizer) (calls more : List (RuleId × Nat)) (s : Session) :
    r.sessionAfter (calls ++ more) s = r.sessionAfter more (r.sessionAfter calls s) := by
  induction calls generalizing s with
  | nil => rfl
  | cons call rest ih => exact ih _

theorem Reachable.sessionAfter (hs : r.Reachable s) (calls : List (RuleId × Nat)) :
    r.Reachable (r.sessionAfter calls s) := by
  induction calls generalizing s with
  | nil => exact hs
  | cons call rest ih => exact ih (.apply call.1 call.2 hs)

/-- An application comes to what it comes to in the session that those before it leave behind. -/
theorem getElem?_applyAll (r : Recognizer) (calls : List (RuleId × Nat)) (s : Session) (i : Nat) :
    (r.applyAll calls s)[i]? =
      calls[i]?.map fun call => (r.apply call.1 call.2 (r.sessionAfter (calls.take i) s)).1 := by
  induction calls generalizing s i with
  | nil => rfl
  | cons call rest ih =>
    cases i with
    | zero => rfl
    | succ i => exact ih _ i

theorem final_stays_after (hs : r.Reachable s) {k : Key} {a : Answer}
    (h : s.memo[k]? = some (.final a)) (calls : List (RuleId × Nat)) :
    (r.sessionAfter calls s).memo[k]? = some (.final a) := by
  induction calls generalizing s with
  | nil => exact h
  | cons call rest ih =>
    exact ih (.apply call.1 call.2 hs) (final_stays hs.disciplined h call.1 call.2)

theorem final_after (r : Recognizer) {calls : List (RuleId × Nat)} {i n : Nat} {a : Answer}
    (hcall : calls[i]? = some (x, pos)) (ha : (r.applyAll calls {})[i]? = some (.ok a))
    (hn : i < n) : (r.sessionAfter (calls.take n) {}).memo[(x, pos)]? = some (.final a) := by
  have hbefore : r.Reachable (r.sessionAfter (calls.take i) {}) := Reachable.start.sessionAfter _
  rw [getElem?_applyAll, hcall, Option.map_some] at ha
  have hfinal := final_of_apply hbefore.disciplined (Option.some.inj ha)
  have htake : calls.take n = calls.take i ++ (x, pos) :: (calls.take n).drop (i + 1) := by
    have hsplit := List.take_append_drop (i + 1) (calls.take n)
    rw [List.take_take, Nat.min_eq_left hn, List.take_add_one, hcall] at hsplit
    simpa using hsplit.symm
  rw [htake, sessionAfter_append]
  exact final_stays_after (.apply x pos hbefore) hfinal _

/-- All applications of a rule at a position in one session that answer, answer the same, whatever
else is applied and however it ends: the answer stays remembered for good, and without a limit on
steps it is given again each time. -/
theorem applyAll_lasts (r : Recognizer) {calls : List (RuleId × Nat)} {i : Nat} {a : Answer}
    (hcall : calls[i]? = some (x, pos)) (ha : (r.applyAll calls {})[i]? = some (.ok a)) :
    (∀ (j : Nat) (b : Answer), calls[j]? = some (x, pos) →
      (r.applyAll calls {})[j]? = some (.ok b) → b = a) ∧
      (∀ j : Nat, i < j → calls[j]? = some (x, pos) → r.stepLimit = none →
        (r.applyAll calls {})[j]? = some (.ok a)) ∧
      ∀ n, i < n → (r.sessionAfter (calls.take n) {}).memo[(x, pos)]? = some (.final a) := by
  refine ⟨fun j b hj hb => ?_, fun j hij hj hlimit => ?_, fun n hn => final_after r hcall ha hn⟩
  · -- Both answers are remembered once both applications have been made.
    have hfirst := final_after r hcall ha (n := i + j + 1) (by omega)
    have hsecond := final_after r hj hb (n := i + j + 1) (by omega)
    cases hfirst.symm.trans hsecond
    rfl
  · have hbefore : r.Reachable (r.sessionAfter (calls.take i) {}) := Reachable.start.sessionAfter _
    have hx : r.graph.contains x = true := by
      rw [getElem?_applyAll, hcall, Option.map_some] at ha
      exact contains_of_apply (Option.some.inj ha)
    have hlater : r.Reachable (r.sessionAfter (calls.take j) {}) := Reachable.start.sessionAfter _
    rw [getElem?_applyAll, hj, Option.map_some,
      apply_final hlimit hlater.disciplined hx (final_after r hcall ha hij)]

set_option maxRecDepth 20000 in
theorem applyAll_lasts_list :
    let g : RuleGraph := ⟨#[⟨"list", .choice [⟨1⟩, ⟨2⟩], {}⟩, ⟨"more", .sequence [⟨0⟩, ⟨2⟩], {}⟩,
      ⟨"x", .literal "x", {}⟩, ⟨"<forward>", .reference none, {}⟩]⟩
    let r : Recognizer := { graph := g, buffer := .ofList ['x', 'x'] }
    let item (pos : Nat) : Answer := .node ⟨2⟩ pos 1 []
    let list : Answer := .node ⟨0⟩ 0 2 [.node ⟨1⟩ 0 2 [.node ⟨0⟩ 0 1 [item 0], item 1]]
    let calls : List (RuleId × Nat) := [(⟨0⟩, 0), (⟨3⟩, 0), (⟨1⟩, 0), (⟨0⟩, 0)]
    calls[0]? = some (⟨0⟩, 0) ∧ (r.applyAll calls {})[0]? = some (.ok list) ∧
      (∀ (j : Nat) (b : Answer), calls[j]? = some (⟨0⟩, 0) →
      (r.applyAll calls {})[j]? = some (.ok b) → b = list) ∧
      (∀ j : Nat, 0 < j → calls[j]? = some (⟨0⟩, 0) → r.stepLimit = none →
        (r.applyAll calls {})[j]? = some (.ok list)) ∧
      ∀ n, 0 < n → (r.sessionAfter (calls.take n) {}).memo[((⟨0⟩, 0) : Key)]? =
        some (.final list) := by
  intro g r item list calls
  have hfirst : (r.applyAll calls {})[0]? = some (.ok list) := by cbv
  exact ⟨rfl, hfirst, applyAll_lasts r rfl hfirst⟩

/-! ### Errors -/

/-- Whatever was applied before, a plain application ends as it means. -/
theorem Reachable.apply_plain (hs : r.Reachable s) (hlimit : r.stepLimit = none)
    (hclosed : r.graph.ClosedFrom x) {result : Except EvalError Answer}
    (hplain : r.Plain x pos result) : (r.apply x pos s).1 = plainOutcome result := by
  have hfair := hs.fair hlimit
  exact (Recognizer.apply_plain hlimit hclosed hplain hs.disciplined
    (hfair.faithful.unbiased (hfair.eligible hs.disciplined.tracked))).1

/-- Nothing is remembered of a plain application that ends with an error. -/
theorem Reachable.no_entry (hs : r.Reachable s) (hlimit : r.stepLimit = none) {e : EvalError}
    (hplain : r.Plain x pos (.error e)) : s.memo[(x, pos)]? = none := by
  have hfaithful := (hs.fair hlimit).faithful
  cases hentry : s.memo[(x, pos)]? with
  | none => rfl
  | some entry =>
    cases entry with
    | inProgress number => exact absurd hentry (hs.disciplined.not_inProgress (x, pos) number)
    | involved seed id => exact absurd hentry (hfaithful.involved (x, pos) _ seed id hplain)
    | final a => cases hfaithful.final (x, pos) _ a hplain hentry

/-- An error of a plain application is never forgotten, whatever else is applied and however it
ends: all applications of the rule at the position end with it, and nothing is ever remembered of
them. -/
theorem error_lasts (hclosed : r.graph.ClosedFrom x) (hlimit : r.stepLimit = none)
    {result : Except EvalError Answer} (hplain : r.Plain x pos result) {calls : List (RuleId × Nat)}
    {i : Nat} {e : EvalError} (hcall : calls[i]? = some (x, pos))
    (he : (r.applyAll calls {})[i]? = some (.error (.error e))) :
    (∀ j : Nat, calls[j]? = some (x, pos) → (r.applyAll calls {})[j]? = some (.error (.error e))) ∧
      ∀ n, (r.sessionAfter (calls.take n) {}).memo[(x, pos)]? = none := by
  have hreachable : ∀ n, r.Reachable (r.sessionAfter (calls.take n) {}) :=
    fun n => Reachable.start.sessionAfter _
  have houtcome : ∀ j : Nat, calls[j]? = some (x, pos) →
      (r.applyAll calls {})[j]? = some (plainOutcome result) := by
    intro j hj
    rw [getElem?_applyAll, hj, Option.map_some, (hreachable j).apply_plain hlimit hclosed hplain]
  have hresult : result = .error e := by
    have heq := Option.some.inj ((houtcome i hcall).symm.trans he)
    cases result with
    | ok a => cases heq
    | error e' =>
      cases heq
      rfl
  subst hresult
  exact ⟨houtcome, fun n => (hreachable n).no_entry hlimit hplain⟩

set_option maxRecDepth 20000 in
theorem error_lasts_pair :
    let g : RuleGraph := ⟨#[⟨"list", .choice [⟨1⟩, ⟨2⟩], {}⟩, ⟨"more", .sequence [⟨0⟩, ⟨3⟩], {}⟩,
      ⟨"x", .literal "x", {}⟩, ⟨"<forward>", .reference none, {}⟩,
      ⟨"pair", .sequence [⟨2⟩, ⟨3⟩], {}⟩]⟩
    let r : Recognizer := { graph := g, buffer := .ofList ['x'] }
    let calls : List (RuleId × Nat) := [(⟨4⟩, 0), (⟨0⟩, 0), (⟨4⟩, 0)]
    let e : EvalError := .unresolvedReference ⟨3⟩
    g.ClosedFrom ⟨4⟩ ∧ r.stepLimit = none ∧ r.Plain ⟨4⟩ 0 (.error e) ∧ calls[0]? = some (⟨4⟩, 0) ∧
      (r.applyAll calls {})[0]? = some (.error (.error e)) ∧
      (∀ j : Nat, calls[j]? = some (⟨4⟩, 0) →
      (r.applyAll calls {})[j]? = some (.error (.error e))) ∧
      ∀ n, (r.sessionAfter (calls.take n) {}).memo[((⟨4⟩, 0) : Key)]? = none := by
  intro g r calls e
  have hclosed : g.Closed := by decide
  have hplain : r.Plain ⟨4⟩ 0 (.error e) := ⟨3, rfl⟩
  have hfirst : (r.applyAll calls {})[0]? = some (.error (.error e)) := by cbv
  exact ⟨hclosed.closedFrom ⟨4⟩, rfl, hplain, rfl, hfirst,
    error_lasts (hclosed.closedFrom ⟨4⟩) rfl hplain rfl hfirst⟩

/-- After an error nothing is remembered of the application, so it is made anew the next time;
unless the error came up while its rule grew, for then the same application answers from then on. -/
theorem error_gives_way (hs : r.Reachable s) (hlimit : r.stepLimit = none)
    (hx : r.graph.contains x = true) {e : Stop} (he : (r.apply x pos s).1 = .error e) :
    (r.apply x pos s).2.memo[(x, pos)]? = none ∨
      ∃ a, ∀ calls, (r.apply x pos (r.sessionAfter calls (r.apply x pos s).2)).1 = .ok a := by
  have hnext : r.Reachable (r.apply x pos s).2 := .apply x pos hs
  rcases (apply_leaves hs.disciplined hx).of_stop he hlimit with hnone | ⟨a, ha⟩
  · exact .inl hnone
  · refine .inr ⟨a, fun calls => ?_⟩
    exact apply_final hlimit (hnext.sessionAfter calls).disciplined hx
      (final_stays_after hnext ha calls)

set_option maxRecDepth 20000 in
/-- A rule that fails while it grows answers the next time, with the match that it had come to. -/
theorem error_forgotten :
    let g : RuleGraph := ⟨#[⟨"list", .choice [⟨1⟩, ⟨2⟩], {}⟩, ⟨"more", .sequence [⟨0⟩, ⟨3⟩], {}⟩,
      ⟨"x", .literal "x", {}⟩, ⟨"<forward>", .reference none, {}⟩]⟩
    let r : Recognizer := { graph := g, buffer := .ofList ['x'] }
    r.applyAll [(⟨0⟩, 0), (⟨0⟩, 0)] {} =
      [.error (.error (.unresolvedReference ⟨3⟩)), .ok (.node ⟨0⟩ 0 1 [.node ⟨2⟩ 0 1 []])] := by
  cbv

end Recognizer

end Packrat
