import Packrat.Proofs.Recognition.Mirror
import Packrat.Proofs.Recognition.Bodies
import Packrat.Proofs.Recognition.Operations
import Packrat.Proofs.Recognition.Step

/-! Plain applications answer what they mean, whatever else goes on.

In a session that holds nothing against the plain meaning of rules (`Session.Unbiased`) a
plain application ends as its interpretation does, and all it does to the session is to
remember plain answers (`Session.Aside`). It never comes back to what is under way, for that
would take its interpretation no further; so no head is made for it, and none that there
is gets to involve it. -/
namespace Packrat

/-- A head but for what it saw remembered. -/
def Head.unwritten (h : Head) : Head := { h with written := [] }

/-- Nothing that is remembered contradicts the plain meaning of rules, and no rule is to be
evaluated anew where its application is plain. -/
structure Session.Unbiased (r : Recognizer) (s : Session) : Prop where
  final : ∀ (k : RuleId × Nat) result a, r.Plain k.1 k.2 result → s.memo[k]? = some (.final a) →
    result = .ok a
  involved : ∀ (k : RuleId × Nat) result a id, r.Plain k.1 k.2 result →
    s.memo[k]? ≠ some (.involved a id)
  eligible : ∀ (k : RuleId × Nat) result, r.Plain k.1 k.2 result → ¬ s.isEligible k.1 k.2 = true

/-- All that plain applications do to a session. -/
structure Session.Aside (r : Recognizer) (s s' : Session) : Prop where
  frames : s'.frames = s.frames
  growing : s'.growing = s.growing
  nextHead : s'.nextHead = s.nextHead
  heads : ∀ id : HeadId, (s'.heads[id]?).map Head.unwritten = (s.heads[id]?).map Head.unwritten
  memo : ∀ k : RuleId × Nat, s'.memo[k]? = s.memo[k]? ∨
    ∃ a, r.Plain k.1 k.2 (.ok a) ∧ s'.memo[k]? = some (.final a)

namespace Session
variable {r : Recognizer} {s s' s'' : Session} {x : RuleId} {pos : Nat}

theorem Aside.refl (s : Session) : s.Aside r s := ⟨rfl, rfl, rfl, fun _ => rfl, fun _ => .inl rfl⟩

theorem Aside.trans (h : s.Aside r s') (h' : s'.Aside r s'') : s.Aside r s'' := by
  refine ⟨h'.frames.trans h.frames, h'.growing.trans h.growing, h'.nextHead.trans h.nextHead,
    fun id => (h'.heads id).trans (h.heads id), fun k => ?_⟩
  rcases h'.memo k with hk | hk
  · rw [hk]
    exact h.memo k
  · exact .inr hk

/-- What neither touches memory nor heads leaves all aside. -/
theorem Aside.of_eq (hframes : s'.frames = s.frames) (hgrowing : s'.growing = s.growing)
    (hnext : s'.nextHead = s.nextHead) (hheads : s'.heads = s.heads) (hmemo : s'.memo = s.memo) :
    s.Aside r s' :=
  ⟨hframes, hgrowing, hnext, fun _ => by rw [hheads], fun _ => .inl (by rw [hmemo])⟩

theorem Aside.isEligible (h : s.Aside r s') : s'.isEligible x pos = s.isEligible x pos := by
  have hany : ∀ o o' : Option Head, o'.map Head.unwritten = o.map Head.unwritten →
      o'.any (·.eligible.contains x) = o.any (·.eligible.contains x) := by
    intro o o' ho
    have hblind : ∀ o : Option Head, o.any (·.eligible.contains x) =
        (o.map Head.unwritten).any (·.eligible.contains x) := fun o => by cases o <;> rfl
    rw [hblind o', ho, ← hblind o]
  rw [Session.isEligible, Session.isEligible, h.growing]
  cases s.growing[pos]? with
  | none => rfl
  | some id => exact hany _ _ (h.heads id)

theorem Aside.unbiased (h : s.Aside r s') (hs : s.Unbiased r) : s'.Unbiased r := by
  refine ⟨fun k result a hk hmem => ?_, fun k result a id hk hmem => ?_, fun k result hk => ?_⟩
  · rcases h.memo k with heq | ⟨b, hb, heq⟩
    · exact hs.final k result a hk (heq ▸ hmem)
    · cases heq.symm.trans hmem
      exact hk.unique hb
  · rcases h.memo k with heq | ⟨b, hb, heq⟩
    · exact hs.involved k result a id hk (heq ▸ hmem)
    · cases heq.symm.trans hmem
  · rw [h.isEligible]
    exact hs.eligible k result hk

theorem Aside.remember {a : Answer} (ha : r.Plain x pos (.ok a)) :
    s.Aside r (s.remember x pos (.final a)) := by
  refine ⟨frames_remember _, growing_remember _, nextHead_remember _,
    heads_remember_map Head.unwritten (fun _ _ => rfl) _, fun k => ?_⟩
  by_cases hk : k = (x, pos)
  · subst hk
    exact .inr ⟨a, ha, remember_self _⟩
  · exact .inl (remember_other hk _)

theorem Unbiased.enter (hs : s.Unbiased r) : (s.enter x pos).Unbiased r := by
  have hlookup : ∀ (k : RuleId × Nat) (e : Entry), (s.enter x pos).memo[k]? = some e →
      e ≠ .inProgress s.frames.length → s.memo[k]? = some e := by
    intro k e hk he
    rw [show (s.enter x pos).memo[k]? = _ from Std.HashMap.getElem?_insert] at hk
    split at hk
    · exact absurd (Option.some.inj hk).symm he
    · exact hk
  exact ⟨fun k result a hk hmem => hs.final k result a hk (hlookup k _ hmem nofun),
    fun k result a id hk hmem => hs.involved k result a id hk (hlookup k _ hmem nofun), hs.eligible⟩

/-- The frame of an application is left, with its entry as it was before or with a plain answer. -/
theorem Aside.leave {t : Session} (h : (s.enter x pos).Aside r s')
    (hframes : t.frames = s'.frames.tail) (hgrowing : t.growing = s'.growing)
    (hnext : t.nextHead = s'.nextHead)
    (hheads : ∀ id : HeadId, (t.heads[id]?).map Head.unwritten = (s'.heads[id]?).map Head.unwritten)
    (hmemo : ∀ k, k ≠ (x, pos) → t.memo[k]? = s'.memo[k]?)
    (hentry : t.memo[(x, pos)]? = s.memo[(x, pos)]? ∨
      ∃ a, r.Plain x pos (.ok a) ∧ t.memo[(x, pos)]? = some (.final a)) : s.Aside r t := by
  refine ⟨?_, hgrowing.trans h.growing, hnext.trans h.nextHead,
    fun id => (hheads id).trans (h.heads id), fun k => ?_⟩
  · rw [hframes, h.frames]
    rfl
  · by_cases hk : k = (x, pos)
    · subst hk
      exact hentry
    · have hother : (s.enter x pos).memo[k]? = s.memo[k]? := setEntry_other hk _
      rw [hmemo k hk]
      rcases h.memo k with heq | hplain
      · exact .inl (heq.trans hother)
      · exact .inr hplain

theorem Aside.finish {a : Answer} (h : (s.enter x pos).Aside r s') (ha : r.Plain x pos (.ok a)) :
    s.Aside r (s'.leave.remember x pos (.final a)) := by
  have hremember : s'.leave.Aside r (s'.leave.remember x pos (.final a)) := .remember ha
  refine h.leave hremember.frames hremember.growing hremember.nextHead hremember.heads
    (fun k hk => remember_other hk (.final a)) ?_
  · exact .inr ⟨a, ha, remember_self _⟩

theorem Aside.fail (h : (s.enter x pos).Aside r s') (hnone : s.memo[(x, pos)]? = none) :
    s.Aside r (s'.leave.dropEntry x pos) := by
  refine h.leave rfl rfl rfl (fun _ => rfl) (fun k hk => dropEntry_other hk) (.inl ?_)
  · rw [hnone]
    exact Std.HashMap.getElem?_erase_self

end Session

namespace Recognizer
variable {r : Recognizer} {rec : RuleId → Nat → Recognition Answer} {x : RuleId} {pos : Nat}

/-- The meaning of a rule is that of its body. -/
theorem tracedBody_mirrors {n : Nat} {s : Session}
    (hrec : ∀ y q, Mirrors (s.Aside r) (SameAt q) (rec y q) (r.interpret n y q)) :
    Mirrors (s.Aside r) (SameAt pos) (tracedBody rec r x pos) (r.interpret (n + 1) x pos) := by
  intro result hresult
  refine tracedBody_upholds (fun s' e h => h.trans (.of_eq rfl rfl rfl rfl rfl)) ?_
    fun _ _ _ => trivial
  rw [interpret] at hresult
  cases hfound : r.graph.rule? x with
  | none =>
    rw [body, RuleGraph.rule, hfound]
    exact .bind (Q := fun _ => False) (.throw trivial) fun _ h => h.elim
  | some found =>
    rw [hfound] at hresult
    exact body_mirrors hrec r n x pos hfound result hresult

/-- An application of which nothing is remembered answers what it means, if its body does. -/
theorem applyFresh_mirrors {eval : RuleId → Nat → Recognition Answer} {n : Nat} {s : Session}
    {result : Except EvalError Answer} (hresult : (r.interpret (n + 1) x pos).run = some result)
    (hnone : s.memo[(x, pos)]? = none)
    (hbody : Mirrors ((s.enter x pos).Aside r) (SameAt pos) (eval x pos)
        (r.interpret (n + 1) x pos)) :
    Ends (applyFresh eval r x pos) s
      (fun a s' => (∃ b, result = .ok b ∧ SameAt pos a b) ∧ s.Aside r s')
      fun e s' => Excuses result e ∧ s.Aside r s' := by
  have htop : ∀ s', (s.enter x pos).Aside r s' → s'.top = none := by
    intro s' h
    rw [Session.top, h.frames]
    rfl
  rw [applyFresh, ends_bind, ends_modify, ends_bind, ends_outcomeOf]
  refine (hbody result hresult _ (.refl _)).mono (fun a s₁ h => ?_) fun e s₁ h => ?_
  · obtain ⟨⟨b, hb, hab⟩, h₁⟩ := h
    rw [leaveWith, ends_bind, ends_get, ends_bind, ends_modify, htop s₁ h₁]
    refine ⟨⟨b, hb, hab⟩, h₁.finish ⟨n + 1, ?_⟩⟩
    rw [hresult, hb, hab.1]
  · obtain ⟨he, h₁⟩ := h
    rw [leaveWith, ends_bind, ends_get, ends_bind, ends_modify, htop s₁ h₁]
    exact ⟨he, h₁.fail hnone⟩

/-- An application answers what it means where it is plain, if no application under way is plain at
this depth. -/
theorem applyWithin_mirrors (hlimit : r.stepLimit = none) (n depth : Nat) (x : RuleId) (pos : Nat)
    {s₀ : Session} (hs₀ : s₀.Unbiased r)
    (hprogress : ∀ (k : RuleId × Nat) (number : Nat),
      s₀.memo[k]? = some (.inProgress number) → (r.interpret n k.1 k.2).run = none) :
    Mirrors (s₀.Aside r) (SameAt pos) (r.applyWithin depth x pos) (r.interpret n x pos) := by
  induction n generalizing depth x pos s₀ with
  | zero => exact nofun
  | succ n ih =>
    have hbelow : ∀ k : RuleId × Nat,
        (r.interpret (n + 1) k.1 k.2).run = none → (r.interpret n k.1 k.2).run = none := by
      intro k hk
      cases h : (r.interpret n k.1 k.2).run with
      | none => rfl
      | some result => exact nomatch (interpret_extends r n k.1 k.2 result h).symm.trans hk
    intro result hresult
    cases hlow : (r.interpret n x pos).run with
    | some result' =>
      cases (interpret_extends r n x pos result' hlow).symm.trans hresult
      exact ih depth x pos hs₀ (fun k number hk => hbelow k (hprogress k number hk)) result hlow
    | none =>
      cases depth with
      | zero => exact .throw trivial
      | succ depth =>
        intro s hs
        have hplain : r.Plain x pos result := ⟨n + 1, hresult⟩
        have hs₁ : s₀.Aside r s.counted := hs.trans (.of_eq rfl rfl rfl rfl rfl)
        have hunbiased := hs₁.unbiased hs₀
        have hel : ¬ s.isEligible x pos = true := hunbiased.eligible (x, pos) result hplain
        -- What is under way was so before, for plain applications leave only answers.
        have hunder : ∀ (k : RuleId × Nat) (number : Nat),
            s.memo[k]? = some (.inProgress number) → (r.interpret (n + 1) k.1 k.2).run = none := by
          intro k number hk
          rcases hs.memo k with heq | ⟨a, _, heq⟩
          · exact hprogress k number (heq ▸ hk)
          · cases heq.symm.trans hk
        cases hentry : s.memo[(x, pos)]? with
        | none =>
          rw [ends_fresh hlimit hel hentry]
          have hfresh := applyFresh_mirrors (s := s.counted) hresult hentry <|
            tracedBody_mirrors fun y q => ih depth y q ?_ fun k number hk => ?_
          · exact hfresh.mono (fun a s' h => ⟨h.1, hs₁.trans h.2⟩) fun e s' h =>
              ⟨h.1, hs₁.trans h.2⟩
          · exact hunbiased.enter
          · by_cases heq : (x, pos) = k
            · subst heq
              exact hlow
            · rw [show (Session.enter _ x pos).memo[k]? = _ from Std.HashMap.getElem?_insert,
                if_neg fun hbeq => heq (beq_iff_eq.mp hbeq)] at hk
              exact hbelow k (hunder k number hk)
        | some e =>
          cases e with
          | inProgress number => cases (hunder (x, pos) number hentry).symm.trans hresult
          | involved seed id =>
            exact absurd hentry (hunbiased.involved (x, pos) result seed id hplain)
          | final a =>
            have ha := hunbiased.final (x, pos) result a hplain hentry
            subst ha
            rw [ends_final hlimit hel hentry]
            exact ⟨⟨a, rfl, rfl, hplain.at.2⟩, hs₁⟩

end Recognizer

end Packrat
