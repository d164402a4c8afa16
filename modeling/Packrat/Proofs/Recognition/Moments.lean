import Packrat.Proofs.Recognition.Lasting

/-! What holds at every moment of a run.

A run makes applications and evaluates bodies inside of each other. Each of them is found by
what would happen without it: a call is made if the work that may make it stops as soon as
the call stops it (`haltAt`), for no other bound is ever met. In this way `Begun` goes
from an application in a session between others down to all that is done for it, and a
`Moment` is a session in which something of this begins or ends.

As all of it settles only for sessions that are disciplined, nothing else can be begun
(`Evaluates.begun`, `Settles.begun`). So the frames are numbered as the entries in
progress say at every moment, and none is left between applications (`frames_numbered`). -/
namespace Packrat.Recognizer

/-- The same work, except that one call stops as if a bound was met. -/
noncomputable def haltAt (work : RuleId → Nat → Recognition Answer) (x : RuleId) (pos : Nat)
    (s : Session) : RuleId → Nat → Recognition Answer :=
  open Classical in fun y q t =>
    if y = x ∧ q = pos ∧ t = s then (.error .exhausted, t) else work y q t

inductive Task where
  | apply
  | evaluate

/-- What is done for a task, with so many applications inside of each other at most. -/
def Task.run (r : Recognizer) (depth : Nat) : Task → RuleId → Nat → Recognition Answer
  | .apply => r.applyWithin depth
  | .evaluate => tracedBody (r.applyWithin depth) r

/-- What is begun in a run, and in which session. -/
inductive Begun (r : Recognizer) : Task → Nat → RuleId → Nat → Session → Prop where
  | first {x : RuleId} {s : Session} (pos : Nat) :
    r.Reachable s → r.graph.contains x = true → r.Begun .apply r.depthBound x pos s
  /-- An application evaluates the body of its rule. -/
  | evaluates {depth : Nat} {x : RuleId} {pos : Nat} {s t : Session} : r.Begun .apply
      (depth + 1) x pos s →
    (step (haltAt (Task.run r depth .evaluate) x pos t) r x pos s).1 = .error .exhausted →
      r.Begun .evaluate depth x pos t
  /-- A body applies a rule. -/
  | applies {depth : Nat} {x y : RuleId} {pos q : Nat} {s t : Session} : r.Begun .evaluate
      depth x pos s →
    (tracedBody (haltAt (Task.run r depth .apply) y q t) r x pos s).1 = .error .exhausted →
      r.Begun .apply depth y q t

/-- A session between applications, or as something begins or ends in a run. -/
inductive Moment (r : Recognizer) : Session → Prop where
  | between {s : Session} : r.Reachable s → r.Moment s
  | begins {task : Task} {depth : Nat} {x : RuleId} {pos : Nat} {s : Session} :
    r.Begun task depth x pos s → r.Moment s
  | ends {task : Task} {depth : Nat} {x : RuleId} {pos : Nat} {s : Session} :
    r.Begun task depth x pos s → r.Moment (task.run r depth x pos s).2

section
variable {r : Recognizer} {work : RuleId → Nat → Recognition Answer} {c : Scene} {s t : Session}
  {x y : RuleId} {pos q d : Nat}

/-- Work that settles in any session settles also if it is halted in one to which this does not
apply. -/
theorem haltAt_upholds {E : Stop → Prop} {Q : Answer → Prop}
    (h : Upholds (Disciplined r c) E (work y q) Q) (hnot : y = x ∧ q = pos → ¬ Disciplined r c s) :
    Upholds (Disciplined r c) E (haltAt work x pos s y q) Q := by
  intro t ht
  rw [Ends, haltAt, if_neg]
  · exact h t ht
  · rintro ⟨hy, hq, rfl⟩
    exact hnot ⟨hy, hq⟩ ht

/-- What upholds discipline meets no bound. -/
theorem not_exhausted {w : Recognition Answer} {Q : Answer → Prop}
    (h : Upholds (Disciplined r c) (r.Permitted x) w Q) (dis : Disciplined r c s) :
    (w s).1 ≠ .error .exhausted := by
  intro hstop
  exact ((h s dis).of_stop hstop).1.bounded rfl

/-- An application begins only such evaluations as settle. -/
theorem evaluates_begun (hwork : r.Evaluates work d) (hready : c.Ready pos)
    (hcost : r.cost c pos < d + 1) (dis : Disciplined r c s)
    (hhalts : (step (haltAt work y q t) r x pos s).1 = .error .exhausted) :
    ∃ c', c'.Ready q ∧ (r.graph.contains y = true → r.cost c' q < d) ∧ Disciplined r c' t := by
  by_contra hnone
  have hhalted : r.Evaluates (haltAt work y q t) d := by
    intro c' z p hready' hcost'
    refine haltAt_upholds (hwork c' z p hready' hcost') ?_
    rintro ⟨rfl, rfl⟩ dis'
    exact hnone ⟨c', hready', hcost', dis'⟩
  exact not_exhausted (hhalted.step c x pos hready hcost) dis hhalts

/-- A body begins only such applications as settle. -/
theorem applies_begun (hwork : r.Settles work d) (hready : c.Ready pos)
    (hcost : r.graph.contains x = true → r.cost c pos < d) (dis : Disciplined r c s)
    (hhalts : (tracedBody (haltAt work y q t) r x pos s).1 = .error .exhausted) :
    ∃ c', c'.Ready q ∧ r.cost c' q < d ∧ Disciplined r c' t := by
  by_contra hnone
  have hhalted : r.Settles (haltAt work y q t) d := by
    intro c' z p hready' hcost'
    refine haltAt_upholds (hwork c' z p hready' hcost') ?_
    rintro ⟨rfl, rfl⟩ dis'
    exact hnone ⟨c', hready', hcost', dis'⟩
  exact not_exhausted (hhalted.tracedBody c x pos hready hcost) dis hhalts

/-- What is known of a task where it is begun. -/
def Task.Fit (r : Recognizer) (c : Scene) (depth : Nat) (x : RuleId) (pos : Nat) : Task → Prop
  | .apply => r.cost c pos < depth
  | .evaluate => r.graph.contains x = true → r.cost c pos < depth

/-- Whatever is begun in a run is begun in a disciplined session, and settles. -/
theorem Begun.disciplined {task : Task} {depth : Nat} (h : r.Begun task depth x pos s) :
    ∃ c, c.Ready pos ∧ task.Fit r c depth x pos ∧ Disciplined r c s := by
  induction h with
  | first pos hs _ => exact ⟨{}, .start _ pos, cost_start_lt pos, hs.disciplined⟩
  | @evaluates depth x pos s t _ hhalts ih =>
    obtain ⟨c, hready, hcost, dis⟩ := ih
    exact evaluates_begun (applyWithin_settles r depth).tracedBody hready hcost dis hhalts
  | @applies depth x y pos q s t _ hhalts ih =>
    obtain ⟨c, hready, hcost, dis⟩ := ih
    exact applies_begun (applyWithin_settles r depth) hready hcost dis hhalts

theorem Begun.upholds {task : Task} {depth : Nat} (hready : c.Ready pos)
    (hfit : task.Fit r c depth x pos) :
    Upholds (Disciplined r c) (r.Permitted x) (task.run r depth x pos) (r.Answers x pos) := by
  cases task with
  | apply => exact applyWithin_settles r depth c x pos hready hfit
  | evaluate => exact (applyWithin_settles r depth).tracedBody c x pos hready hfit

theorem Moment.disciplined (h : r.Moment s) : ∃ c, Disciplined r c s := by
  cases h with
  | between hs => exact ⟨{}, hs.disciplined⟩
  | begins hbegun =>
    obtain ⟨c, _, _, dis⟩ := hbegun.disciplined
    exact ⟨c, dis⟩
  | ends hbegun =>
    obtain ⟨c, hready, hfit, dis⟩ := hbegun.disciplined
    exact ⟨c, (Begun.upholds hready hfit).session dis⟩

/-! ### What is begun -/

theorem ends_haltAt (work : RuleId → Nat → Recognition Answer) :
    Ends (haltAt work x pos s x pos) s (fun _ _ => False) fun e _ => e = .exhausted := by
  rw [Ends, haltAt, if_pos ⟨rfl, rfl, rfl⟩]

/-- An application of which nothing is remembered evaluates the body of its rule, in a frame of its
own. -/
theorem fresh_halts (hlimit : r.stepLimit = none) (hel : ¬ s.isEligible x pos = true)
    (hentry : s.memo[(x, pos)]? = none) :
    (step (haltAt work x pos (s.counted.enter x pos)) r x pos s).1 = .error .exhausted := by
  refine Ends.stops ?_
  have hel' : ¬ s.counted.isEligible x pos = true := hel
  have hentry' : s.counted.remembered? x pos = none := hentry
  rw [step, ends_bind, ends_tick hlimit, ends_bind, ends_get, if_neg hel', ends_bind,
    ends_get, hentry']
  dsimp only
  rw [applyFresh, ends_bind, ends_modify, ends_bind, ends_outcomeOf]
  refine (ends_haltAt _).mono (fun _ _ h => h.elim) ?_
  rintro _ s' rfl
  exact leaveWith_stops ..

/-- A choice applies its first rule. -/
theorem choice_halts (htrace : r.trace = false) {rules : List RuleId}
    (hrule : ∃ found, r.graph.rule? x = some found ∧ found.body = .choice (y :: rules)) :
    (tracedBody (haltAt work y pos s) r x pos s).1 = .error .exhausted := by
  obtain ⟨found, hfound, hbody⟩ := hrule
  refine Ends.stops ?_
  rw [tracedBody, htrace, if_neg Bool.false_ne_true, body, orStop_rule hfound, pure_bind, hbody]
  dsimp only
  rw [ends_bind, matchFirst, ends_bind]
  exact (ends_haltAt _).mono (fun _ _ h => h.elim) fun _ _ h => h

/-- A sequence applies its first rule. -/
theorem sequence_halts (htrace : r.trace = false) {rules : List RuleId}
    (hrule : ∃ found, r.graph.rule? x = some found ∧ found.body = .sequence (y :: rules)) :
    (tracedBody (haltAt work y pos s) r x pos s).1 = .error .exhausted := by
  obtain ⟨found, hfound, hbody⟩ := hrule
  refine Ends.stops ?_
  rw [tracedBody, htrace, if_neg Bool.false_ne_true, body, orStop_rule hfound, pure_bind, hbody]
  dsimp only
  rw [if_neg (show ¬ (y :: rules).isEmpty = true from Bool.false_ne_true), ends_bind,
    matchEach, ends_bind]
  exact (ends_haltAt _).mono (fun _ _ h => h.elim) fun _ _ h => h

theorem Begun.fresh {depth : Nat} (hlimit : r.stepLimit = none)
    (h : r.Begun .apply (depth + 1) x pos s) (hel : ¬ s.isEligible x pos = true)
    (hentry : s.memo[(x, pos)]? = none) :
    r.Begun .evaluate depth x pos (s.counted.enter x pos) :=
  h.evaluates (fresh_halts hlimit hel hentry)

theorem Begun.choice {depth : Nat} (htrace : r.trace = false) (h : r.Begun .evaluate depth x pos s)
    {rules : List RuleId} (hrule : ∃ found, r.graph.rule? x = some found ∧
      found.body = .choice (y :: rules)) :
    r.Begun .apply depth y pos s := h.applies (choice_halts htrace hrule)

theorem Begun.sequence {depth : Nat} (htrace : r.trace = false)
    (h : r.Begun .evaluate depth x pos s) {rules : List RuleId}
    (hrule : ∃ found, r.graph.rule? x = some found ∧ found.body = .sequence (y :: rules)) :
    r.Begun .apply depth y pos s := h.applies (sequence_halts htrace hrule)

/-! ### Frames -/

/-- At every moment an entry is in progress exactly where a frame is, and holds its number, and the
frames are those of different applications; so the frame of an application under way is found.
Between applications there are no frames, nothing grows, no entry is in progress, and what has been
answered is final. -/
theorem frames_numbered (r : Recognizer) :
    (∀ s, r.Moment s →
      (∀ (k : Key) (number : Nat), s.memo[k]? = some (.inProgress number) ↔
        number < s.frames.length ∧ (s.frame? number).map Frame.key = some k) ∧
      (∀ f ∈ s.frames, ∃ number, s.frame? number = some f ∧
      s.memo[f.key]? = some (.inProgress number)) ∧ (s.frames.map Frame.key).Nodup) ∧
    ∀ s, r.Reachable s → ∀ x pos,
      (r.apply x pos s).2.frames = [] ∧ (r.apply x pos s).2.growing.isEmpty = true ∧
      (∀ (k : Key) (number : Nat), (r.apply x pos s).2.memo[k]? ≠ some (.inProgress number)) ∧
      ∀ a, (r.apply x pos s).1 = .ok a → (r.apply x pos s).2.memo[(x, pos)]? = some (.final a) := by
  refine ⟨fun s hs => ?_, fun s hs x pos => ?_⟩
  · obtain ⟨c, dis⟩ := hs.disciplined
    have hentry : ∀ (k : Key) (number : Nat), s.memo[k]? = some (.inProgress number) ↔
        (s.frame? number).map Frame.key = some k := by
      intro k number
      rw [dis.tracked.frame?_key]
      exact dis.remembered.inProgress k number
    refine ⟨fun k number => ?_, fun f hf => ?_, ?_⟩
    · rw [hentry]
      refine ⟨fun h => ⟨?_, h⟩, fun h => h.2⟩
      obtain ⟨f, hf, _⟩ := Option.map_eq_some_iff.mp h
      obtain ⟨hlt, _⟩ := List.getElem?_eq_some_iff.mp hf
      rwa [List.length_reverse] at hlt
    · obtain ⟨number, hnumber⟩ := List.mem_iff_getElem?.mp (List.mem_reverse.mpr hf)
      refine ⟨number, hnumber, (hentry f.key number).mpr ?_⟩
      rw [show s.frame? number = some f from hnumber, Option.map_some]
    · exact dis.tracked.frames_nodup
  · have dis := apply_disciplined x pos hs.disciplined
    refine ⟨dis.frames_nil, ?_, dis.not_inProgress, fun a ha => final_of_apply hs.disciplined ha⟩
    rw [Std.HashMap.isEmpty_iff_forall_not_mem]
    intro p hp
    rw [Std.HashMap.mem_iff_isSome_getElem?, dis.not_growing p] at hp
    cases hp

theorem frames_numbered_list :
    let g : RuleGraph := ⟨#[⟨"list", .choice [⟨1⟩, ⟨2⟩], {}⟩, ⟨"more", .sequence [⟨0⟩, ⟨2⟩], {}⟩,
      ⟨"x", .literal "x", {}⟩]⟩
    let r : Recognizer := { graph := g, buffer := .ofList ['x', 'x'] }
    let t := ((Session.counted {}).enter ⟨0⟩ 0).counted.enter ⟨1⟩ 0
    r.Moment t ∧ r.Reachable {} ∧ t.memo[((⟨0⟩, 0) : Key)]? = some (.inProgress 0) ∧
      0 < t.frames.length ∧ (t.frame? 0).map Frame.key = some (⟨0⟩, 0) ∧
      (r.apply ⟨0⟩ 0 {}).2.frames = [] := by
  intro g r t
  have hdepth : r.depthBound = 498 + 1 + 1 := by cbv
  have hfirst : r.Begun .apply (498 + 1 + 1) ⟨0⟩ 0 {} := hdepth ▸ Begun.first 0 .start rfl
  have hlist :=
    Begun.fresh rfl hfirst (not_eligible Std.HashMap.getElem?_empty) Std.HashMap.getElem?_empty
  have hmore := Begun.choice rfl hlist ⟨_, rfl, rfl⟩
  have hnone : ((Session.counted {}).enter ⟨0⟩ 0).memo[((⟨1⟩, 0) : Key)]? = none :=
    (setEntry_other (by decide) _).trans Std.HashMap.getElem?_empty
  have ht : r.Moment t :=
    .begins (Begun.fresh rfl hmore (not_eligible Std.HashMap.getElem?_empty) hnone)
  have hentry : t.memo[((⟨0⟩, 0) : Key)]? = some (.inProgress 0) :=
    (setEntry_other (by decide) _).trans Std.HashMap.getElem?_insert_self
  have hnumbered := ((frames_numbered r).1 t ht).1 (⟨0⟩, 0) 0
  exact ⟨ht, .start, hentry, (hnumbered.mp hentry).1, (hnumbered.mp hentry).2,
    ((frames_numbered r).2 {} .start ⟨0⟩ 0).1⟩

end

end Packrat.Recognizer
