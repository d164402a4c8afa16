import Packrat.Proofs.Recognition.Comparison

/-! A limit on steps is exact.

`Limits limit x x'` compares a recognition `x` that has a limit with one that has none, from any
session within the limit on. As long as `x'` stays within it, both are the same in all they do;
otherwise `x` has taken one step too many, and nothing that was still to be done after that has
taken another. Steps are taken by `tick` alone, and what catches a stop passes it on without taking
steps (`Limits.outcome`); so it is enough to compare one `tick` with a limit and one without
(`limits_comparison`). -/
namespace Packrat
variable {α β : Type} {limit : Nat}

/-! ### One recognition with a limit and one without -/

/-- From a session within the limit on, `x` is `x'` if that stays within, and stops with one step
too many if not. -/
structure Limits (limit : Nat) (x x' : Recognition α) : Prop where
  counts : ∀ s, s.steps ≤ (x' s).2.steps
  cut : ∀ s, s.steps ≤ limit → (x s = x' s ∧ (x' s).2.steps ≤ limit) ∨
    (limit < (x' s).2.steps ∧ (x s).1 = .error (.error (.stepLimit limit)) ∧ (x s).2.steps = limit +
    1)

namespace Limits

/-- What takes no step is the same with a limit. -/
theorem steady {x : Recognition α} (h : ∀ s, (x s).2.steps = s.steps) : Limits limit x x :=
  ⟨fun s => Nat.le_of_eq (h s).symm, fun s hs => .inl ⟨rfl, h s ▸ hs⟩⟩

theorem bind {x x' : Recognition α} {f f' : α → Recognition β} (h : Limits limit x x')
    (hf : ∀ a, Limits limit (f a) (f' a)) : Limits limit (x >>= f) (x' >>= f') := by
  have hcounts : ∀ s, (x' s).2.steps ≤ ((x' >>= f') s).2.steps := by
    intro s
    rw [run_bind]
    rcases x' s with ⟨o, s'⟩
    cases o with
    | ok a => exact (hf a).counts s'
    | error e => exact Nat.le_refl _
  refine ⟨fun s => Nat.le_trans (h.counts s) (hcounts s), fun s hs => ?_⟩
  rcases h.cut s hs with ⟨heq, hle⟩ | ⟨hlt, herror, hsteps⟩
  · rw [run_bind, run_bind, heq]
    rcases hx : x' s with ⟨o, s'⟩
    rw [hx] at hle
    cases o with
    | ok a => exact (hf a).cut s' hle
    | error e => exact .inl ⟨rfl, hle⟩
  · refine .inr ⟨Nat.lt_of_lt_of_le hlt (hcounts s), ?_⟩
    rw [run_bind]
    rcases hx : x s with ⟨o, s'⟩
    rw [hx] at herror hsteps
    cases herror
    exact ⟨rfl, hsteps⟩

/-- A stop that is caught and passed on is cut short if it is passed on as it is, without a step. -/
theorem outcome {x x' : Recognition α} {f f' : Except Stop α → Recognition β}
    (h : Limits limit x x') (hf : ∀ o, Limits limit (f o) (f' o))
    (hstop : ∀ e s, (f (.error e) s).1 = .error e ∧ (f (.error e) s).2.steps = s.steps) :
    Limits limit (Recognizer.outcomeOf x >>= f) (Recognizer.outcomeOf x' >>= f') := by
  have hrun : ∀ (x : Recognition α) (f : Except Stop α → Recognition β) s,
      (Recognizer.outcomeOf x >>= f) s = f (x s).1 (x s).2 := fun _ _ _ => rfl
  refine ⟨fun s => Nat.le_trans (h.counts s) ((hf _).counts _), fun s hs => ?_⟩
  rw [hrun, hrun]
  rcases h.cut s hs with ⟨heq, hle⟩ | ⟨hlt, herror, hsteps⟩
  · rw [heq]
    exact (hf _).cut _ hle
  · obtain ⟨hfirst, hsame⟩ := hstop (.error (.stepLimit limit)) (x s).2
    rw [herror]
    exact .inr ⟨Nat.lt_of_lt_of_le hlt ((hf _).counts _), hfirst, hsame.trans hsteps⟩

end Limits

namespace Recognizer
variable {r : Recognizer} {work free : Work} {x : RuleId} {pos : Nat}

theorem limits_comparison (limit : Nat) : Comparison (Limits limit) where
  pure _ := .steady fun _ => rfl
  throw _ := .steady fun _ => rfl
  bind := .bind
  get _ _ h := .bind (.steady fun _ => rfl) h
  modify hg := .steady fun s => (hg.keeps s).2
  grown _ _ _ _ := .steady fun _ => rfl
  outcome := .outcome

/-! ### Applications -/

theorem tracedBody_limits (hwork : ∀ y q, Limits limit (work y q) (free y q)) (x : RuleId)
    (pos : Nat) : Limits limit (tracedBody work r x pos) (tracedBody free r x pos) := by
  have hreport : ∀ (events : List Event) s, (events.foldl (·.record ·) s : Session).steps =
      s.steps := by
    intro events s
    show (events.foldl (·.record ·) s).unlogged.steps = s.steps
    rw [Session.foldl_record]
    rfl
  refine ((limits_comparison limit).compositional work free).tracedBody hwork
    (fun _ => .steady fun _ => rfl) (fun w events hw => ?_) x pos
  exact hw.outcome (fun o => .steady fun s => hreport (events o) s) fun e s => ⟨rfl, hreport _ s⟩

theorem tick_exceeded {s : Session} (h : limit < s.counted.steps) :
    tick { r with stepLimit := some limit } s = (.error (.error (.stepLimit limit)),
      s.counted) := by
  rw [tick, run_bind]
  show (if limit < s.counted.steps then _ else _ : Recognition Unit) s.counted = _
  rw [if_pos h]
  rfl

theorem tick_limits (r : Recognizer) (limit : Nat) :
    Limits limit (tick { r with stepLimit := some limit }) (tick { r with stepLimit := none }) := by
  have hfree : ∀ s, tick { r with stepLimit := none } s = (.ok (), s.counted) := fun _ => rfl
  refine ⟨fun s => Nat.le_succ s.steps, fun s hs => ?_⟩
  rw [hfree]
  by_cases hlt : limit < s.counted.steps
  · rw [tick_exceeded hlt]
    exact .inr ⟨hlt, rfl, Nat.le_antisymm (Nat.succ_le_succ hs) hlt⟩
  · refine .inl ⟨?_, Nat.le_of_not_lt hlt⟩
    rw [tick, run_bind]
    show (if limit < s.counted.steps then _ else _ : Recognition Unit) s.counted = _
    rw [if_neg hlt]
    rfl

/-- An application with a limit goes the way of one without until a step is one too many. -/
theorem apply_limits (hfree : r.stepLimit = none) (limit : Nat) (x : RuleId) (pos : Nat) :
    Limits limit (apply { r with stepLimit := some limit } x pos) (r.apply x pos) := by
  obtain ⟨graph, buffer, stepLimit, trace⟩ := r
  cases hfree
  have hakin : Akin (Limits limit) ⟨graph, buffer, some limit, trace⟩ ⟨graph, buffer,
      none, trace⟩ :=
    { graph := rfl
      buffer := rfl
      tick := tick_limits ⟨graph, buffer, none, trace⟩ limit
      body := fun hwork => tracedBody_limits (r := ⟨graph, buffer, none, trace⟩) hwork }
  exact apply_compares (limits_comparison limit) hakin x pos

/-- Where the limit is exceeded already, a step is counted and that is all. -/
theorem apply_exceeded {s : Session} (hs : limit < s.steps) (hx : r.graph.contains x = true)
    (pos : Nat) :
    apply { r with stepLimit := some limit } x pos s = (.error (.error (.stepLimit limit)),
      s.counted) := by
  obtain ⟨depth, hdepth⟩ : ∃ depth, depthBound { r with stepLimit := some limit } = depth + 1 :=
    Nat.exists_eq_add_one.mpr
    (Nat.mul_pos (Nat.succ_pos _) (Nat.mul_pos (Nat.mul_pos (Nat.succ_pos _) (Nat.succ_pos _))
      (Nat.succ_pos _)))
  have htick : tick { r with stepLimit := some limit } s = (.error (.error (.stepLimit limit)),
      s.counted) :=
    tick_exceeded (Nat.lt_succ_of_lt hs)
  unfold apply
  rw [if_pos hx, hdepth, applyWithin, step, run_bind, htick]

/-! ### Sessions -/

section
variable (hfree : r.stepLimit = none) {calls : List (RuleId × Nat)} {s : Session}
include hfree

theorem sessionAfter_counts (calls : List (RuleId × Nat)) (s : Session) :
    s.steps ≤ (r.sessionAfter calls s).steps := by
  induction calls generalizing s with
  | nil => exact Nat.le_refl _
  | cons call rest ih => exact Nat.le_trans ((apply_limits hfree 0 call.1 call.2).counts s) (ih _)

/-- Applications that come to no step too many are the same with a limit. -/
theorem sessionAfter_within (h : (r.sessionAfter calls s).steps ≤ limit) :
    sessionAfter { r with stepLimit := some limit } calls s = r.sessionAfter calls s := by
  induction calls generalizing s with
  | nil => rfl
  | cons call rest ih =>
    have hfirst := apply_limits hfree limit call.1 call.2
    have hnext : (r.apply call.1 call.2 s).2.steps ≤ limit :=
      Nat.le_trans (sessionAfter_counts hfree rest _) h
    rcases hfirst.cut s (Nat.le_trans (hfirst.counts s) hnext) with ⟨hsame, _⟩ | ⟨hlt, _⟩
    · unfold sessionAfter
      rw [hsame]
      exact ih h
    · omega

end

/-- Once there is a step too many, there always is. -/
theorem sessionAfter_exceeded {s : Session} (h : limit < s.steps) (calls : List (RuleId × Nat)) :
    limit < (sessionAfter { r with stepLimit := some limit } calls s).steps := by
  induction calls generalizing s with
  | nil => exact h
  | cons call rest ih =>
    refine ih ?_
    by_cases hx : r.graph.contains call.1 = true
    · rw [apply_exceeded h hx]
      exact Nat.lt_succ_of_lt h
    · have hsame : (apply { r with stepLimit := some limit } call.1 call.2 s).2 = s := by
        unfold apply
        rw [if_neg hx]
        rfl
      rwa [hsame]

theorem sessionAfter_beyond (hfree : r.stepLimit = none) {calls : List (RuleId × Nat)} {s : Session}
    (hs : s.steps ≤ limit) (h : limit < (r.sessionAfter calls s).steps) :
    limit < (sessionAfter { r with stepLimit := some limit } calls s).steps := by
  induction calls generalizing s with
  | nil => exact h
  | cons call rest ih =>
    rcases (apply_limits hfree limit call.1 call.2).cut s hs with ⟨hsame, hle⟩ | ⟨_, _, hsteps⟩
    · unfold sessionAfter
      rw [hsame]
      exact ih hle h
    · exact sessionAfter_exceeded (by rw [hsteps]; exact Nat.lt_succ_self limit) rest

/-- One session with a limit and one without. As long as the one without has taken no step too many,
all is the same; the application that takes it ends at the limit instead, and so does each one
after, where it only counts. -/
theorem applyAll_limited (hfree : r.stepLimit = none) (limit : Nat) {calls : List (RuleId × Nat)}
    {i : Nat} (hcall : calls[i]? = some (x, pos)) (hx : r.graph.contains x = true) :
    let limited : Recognizer := { r with stepLimit := some limit }
    let before := r.sessionAfter (calls.take i) {}
    let after := r.sessionAfter (calls.take (i + 1)) {}
    (after.steps ≤ limit → (limited.applyAll calls {})[i]? = (r.applyAll calls {})[i]? ∧
      limited.sessionAfter (calls.take (i + 1)) {} = after) ∧
    (before.steps ≤ limit → limit < after.steps →
      (limited.applyAll calls {})[i]? = some (.error (.error (.stepLimit limit))) ∧
      (limited.sessionAfter (calls.take (i + 1)) {}).steps = limit + 1) ∧
    (limit < before.steps →
      (limited.applyAll calls {})[i]? = some (.error (.error (.stepLimit limit))) ∧
      (limited.sessionAfter (calls.take (i + 1)) {}).steps =
      (limited.sessionAfter (calls.take i) {}).steps + 1) := by
  intro limited before after
  have hnext : ∀ r : Recognizer,
      r.sessionAfter (calls.take (i + 1))
      {} = (r.apply x pos (r.sessionAfter (calls.take i) {})).2 := by
    intro r
    rw [List.take_add_one, hcall, sessionAfter_append]
    rfl
  have hafter : after = (r.apply x pos before).2 := hnext r
  have hlimits := apply_limits hfree limit x pos
  have hcounts : before.steps ≤ after.steps := hafter ▸ hlimits.counts before
  simp only [getElem?_applyAll, hcall, Option.map_some, hnext limited]
  refine ⟨fun hle => ?_, fun hle hlt => ?_, fun hlt => ?_⟩
  · rw [show limited.sessionAfter (calls.take i) {} = before from sessionAfter_within hfree
      (Nat.le_trans hcounts hle)]
    rcases hlimits.cut before (Nat.le_trans hcounts hle) with ⟨hsame, _⟩ | ⟨hlt, _⟩
    · exact ⟨congrArg (some ·.1) hsame, (congrArg Prod.snd hsame).trans hafter.symm⟩
    · rw [← hafter] at hlt
      omega
  · rw [show limited.sessionAfter (calls.take i) {} = before from sessionAfter_within hfree hle]
    rcases hlimits.cut before hle with ⟨_, hwithin⟩ | ⟨_, herror, hsteps⟩
    · rw [← hafter] at hwithin
      omega
    · exact ⟨congrArg some herror, hsteps⟩
  · have hexceeded := sessionAfter_beyond hfree (Nat.zero_le limit) hlt
    rw [show limited.apply x pos _ = _ from apply_exceeded hexceeded hx pos]
    exact ⟨rfl, rfl⟩

set_option maxRecDepth 20000 in
/-- The second application takes eleven steps in rounds of growth, of which seven are within the
limit. -/
theorem applyAll_limited_list :
    let graph : RuleGraph :=
      ⟨#[⟨"list", .choice [⟨1⟩, ⟨2⟩], {}⟩, ⟨"more", .sequence [⟨0⟩, ⟨2⟩], {}⟩,
      ⟨"x", .literal "x", {}⟩]⟩
    let r : Recognizer := { graph, buffer := .ofList ['x', 'x'] }
    let limited : Recognizer := { r with stepLimit := some 8 }
    let calls : List (RuleId × Nat) := [(⟨2⟩, 1), (⟨0⟩, 0), (⟨2⟩, 1)]
    r.stepLimit = none ∧ (∀ call ∈ calls, r.graph.contains call.1 = true) ∧
      (r.sessionAfter (calls.take 1) {}).steps = 1 ∧ (r.sessionAfter (calls.take 2) {}).steps = 12 ∧
      ((limited.applyAll calls {})[0]? = (r.applyAll calls {})[0]? ∧
        limited.sessionAfter (calls.take 1) {} = r.sessionAfter (calls.take 1) {}) ∧
      ((limited.applyAll calls {})[1]? = some (.error (.error (.stepLimit 8))) ∧
        (limited.sessionAfter (calls.take 2) {}).steps = 9) ∧
      ((limited.applyAll calls {})[2]? = some (.error (.error (.stepLimit 8))) ∧
        (limited.sessionAfter (calls.take 3) {}).steps =
        (limited.sessionAfter (calls.take 2) {}).steps + 1) := by
  intro graph r limited calls
  have hfirst : (r.sessionAfter (calls.take 1) {}).steps = 1 := by cbv
  have hsecond : (r.sessionAfter (calls.take 2) {}).steps = 12 := by cbv
  have hcall₀ : calls[0]? = some (⟨2⟩, 1) := rfl
  have hcall₁ : calls[1]? = some (⟨0⟩, 0) := rfl
  have hcall₂ : calls[2]? = some (⟨2⟩, 1) := rfl
  have hwithin := (applyAll_limited (r := r) rfl 8 hcall₀ rfl).1
  have hcut := (applyAll_limited (r := r) rfl 8 hcall₁ rfl).2.1
  have hlater := (applyAll_limited (r := r) rfl 8 hcall₂ rfl).2.2
  rw [hfirst] at hcut
  rw [hsecond] at hcut hlater
  exact ⟨rfl, by
    decide, hfirst, hsecond, hwithin (by rw [hfirst]; decide), hcut (by decide) (by decide),
      hlater (by decide)⟩

end Recognizer

end Packrat
