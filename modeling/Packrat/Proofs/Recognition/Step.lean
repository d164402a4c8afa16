import Packrat.Proofs.Recognition.Ends

/-! What an application does, by what is remembered of it.

Without a limit on steps an application is counted, and then there are five cases: its
rule is to be evaluated anew, has an answer, is under way, is involved in a head whose anchor
is under way, or has left nothing behind. Each is one equation, so what is shown of
applications needs no look at how they are told apart. -/
namespace Packrat

def Session.counted (s : Session) : Session := { s with steps := s.steps + 1 }

namespace Recognizer
variable {r : Recognizer} {x : RuleId} {pos depth : Nat} {s : Session}

/-- An application is counted, and goes on unless there is a limit. -/
theorem tick_ends (r : Recognizer) (s : Session) : Ends (tick r) s (fun _ s' => s' = s.counted)
    fun _ s' => s' = s.counted ∧ r.stepLimit ≠ none := by
  rw [tick, ends_bind, ends_modify]
  cases hlimit : r.stepLimit with
  | none => rfl
  | some limit =>
    dsimp only
    rw [ends_bind, ends_get]
    split
    · exact ⟨rfl, nofun⟩
    · rfl

section
variable (hlimit : r.stepLimit = none) {Q : Answer → Session → Prop} {E : Stop → Session → Prop}
include hlimit

theorem ends_tick {Q : Unit → Session → Prop} : Ends (tick r) s Q E ↔ Q () s.counted := by
  rw [tick, hlimit]
  exact Iff.rfl

theorem ends_anew (hel : s.isEligible x pos = true) :
    Ends (r.applyWithin (depth + 1) x pos) s Q E ↔
      Ends (tracedBody (r.applyWithin depth) r x pos) (s.counted.spend x pos)
        (fun a s' => Q a (s'.remember x pos (.final a))) E := by
  have hel' : s.counted.isEligible x pos = true := hel
  rw [applyWithin, step, ends_bind, ends_tick hlimit, ends_bind, ends_get, if_pos hel', ends_bind,
    ends_modify, ends_bind]
  exact Iff.rfl

variable (hel : ¬ s.isEligible x pos = true)
include hel

theorem ends_final {a : Answer} (hentry : s.memo[(x, pos)]? = some (.final a)) :
    Ends (r.applyWithin (depth + 1) x pos) s Q E ↔ Q a s.counted := by
  have hel' : ¬ s.counted.isEligible x pos = true := hel
  have hentry' : s.counted.remembered? x pos = some (.final a) := hentry
  rw [applyWithin, step, ends_bind, ends_tick hlimit, ends_bind, ends_get, if_neg hel', ends_bind,
    ends_get, hentry']
  exact Iff.rfl

theorem ends_underWay {number : Nat} (hentry : s.memo[(x, pos)]? = some (.inProgress number)) :
    Ends (r.applyWithin (depth + 1) x pos) s Q E ↔ Q (.fail x pos) (s.counted.reenter number) := by
  have hel' : ¬ s.counted.isEligible x pos = true := hel
  have hentry' : s.counted.remembered? x pos = some (.inProgress number) := hentry
  rw [applyWithin, step, ends_bind, ends_tick hlimit, ends_bind, ends_get, if_neg hel', ends_bind,
    ends_get, hentry']
  exact Iff.rfl

theorem ends_involved {a : Answer} {id : HeadId}
    (hentry : s.memo[(x, pos)]? = some (.involved a id)) (hunder : s.anchorUnderWay id = true) :
    Ends (r.applyWithin (depth + 1) x pos) s Q E ↔ Q a (s.counted.involve id) := by
  have hel' : ¬ s.counted.isEligible x pos = true := hel
  have hentry' : s.counted.remembered? x pos = some (.involved a id) := hentry
  have hunder' : s.counted.anchorUnderWay id = true := hunder
  rw [applyWithin, step, ends_bind, ends_tick hlimit, ends_bind, ends_get, if_neg hel', ends_bind,
    ends_get, hentry']
  dsimp only
  rw [ends_bind, ends_get, if_pos hunder', ends_bind, ends_modify]
  exact Iff.rfl

theorem ends_fresh (hentry : s.memo[(x, pos)]? = none) :
    Ends (r.applyWithin (depth + 1) x pos) s Q E ↔
      Ends (applyFresh (tracedBody (r.applyWithin depth) r) r x pos) s.counted Q E := by
  have hel' : ¬ s.counted.isEligible x pos = true := hel
  have hentry' : s.counted.remembered? x pos = none := hentry
  rw [applyWithin, step, ends_bind, ends_tick hlimit, ends_bind, ends_get, if_neg hel', ends_bind,
    ends_get, hentry']

end

/-- An application whose body stops, stops for the same reason. -/
theorem leaveWith_stops (eval : RuleId → Nat → Recognition Answer) (r : Recognizer) (x : RuleId)
    (pos : Nat) (e : Stop) (s : Session) : Ends (leaveWith eval r x pos (.error e)) s
      (fun _ _ => False) fun e' _ => e' = e := by
  rw [leaveWith, ends_bind, ends_get, ends_bind, ends_modify]
  dsimp only
  rw [ends_bind, ends_modify]
  split <;> rfl

/-- An application of which nothing is remembered, by what its rule turns out to be when it is left:
involved in a head, or an anchor. -/
theorem applyFresh_reaches {eval : RuleId → Nat → Recognition Answer} {P : Session → Prop}
    {R Q : Answer → Session → Prop} (hbody : Reaches P (eval x pos) R)
    (hleave : ∀ a s, R a s → ∃ id,
      (s.top = some (id, false) ∧ Q a (s.leave.remember x pos (.involved a id))) ∨
      (s.top = some (id, true) ∧
      (a.matched = false → Q a ((s.leave.remember x pos (.final a)).release id)) ∧
        (a.matched = true → Ends (grow eval r id x pos a) (s.leave.remember x pos (.final a))
          (fun b s' => Q b (s'.release id)) fun e _ => e.Lapse))) :
    Reaches (fun s => P (s.enter x pos)) (applyFresh eval r x pos) Q := by
  intro s hs
  rw [applyFresh, ends_bind, ends_modify, ends_bind, ends_outcomeOf]
  refine (hbody _ hs).mono (fun a s₁ h => ?_) fun e s₁ he => ?_
  · obtain ⟨id, hleave⟩ := hleave a s₁ h
    rw [leaveWith, ends_bind, ends_get, ends_bind, ends_modify]
    rcases hleave with ⟨htop, hQ⟩ | ⟨htop, hfail, hgrow⟩
    · rw [htop]
      exact hQ
    · rw [htop]
      dsimp only
      rw [ends_bind, ends_modify]
      by_cases hm : a.matched = true
      · rw [if_pos hm, ends_bind, ends_outcomeOf]
        exact hgrow hm
      · rw [if_neg hm]
        exact hfail (by simpa using hm)
  · exact (leaveWith_stops eval r x pos e s₁).mono (fun _ _ h => h.elim) fun _ _ h => h ▸ he

end Recognizer

end Packrat
