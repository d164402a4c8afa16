import Packrat.Proofs.Recognition.Refinement

/-! Applications without a plain meaning.

An application is endless if its plain interpretation comes to an end at no depth; otherwise it has
a plain result (`plain_of_not_endless`). A session is faithful if what it remembers of plain
applications is what they mean (`Session.Faithful`), whatever is done to the entries of endless
ones. Plain applications that are made in it then answer what they mean (`applyWithin_plain`). -/
namespace Packrat

/-- The plain interpretation of the application comes to no end. -/
def Recognizer.Endless (r : Recognizer) (x : RuleId) (pos : Nat) : Prop :=
  ∀ n, (r.interpret n x pos).run = none

theorem Recognizer.Endless.not_plain {r : Recognizer} {x : RuleId} {pos : Nat}
    {result : Except EvalError Answer} (h : r.Endless x pos) : ¬ r.Plain x pos result := by
  rintro ⟨n, hn⟩
  cases (h n).symm.trans hn

theorem Recognizer.plain_of_not_endless {r : Recognizer} {x : RuleId} {pos : Nat}
    (h : ¬ r.Endless x pos) : ∃ result, r.Plain x pos result := by
  rw [Endless, not_forall] at h
  obtain ⟨n, hn⟩ := h
  obtain ⟨result, hresult⟩ := Option.ne_none_iff_exists'.mp hn
  exact ⟨result, n, hresult⟩

/-- All that is remembered of plain applications is what they mean, and none is in progress. -/
structure Session.Faithful (r : Recognizer) (s : Session) : Prop where
  final : ∀ (k : RuleId × Nat) result a, r.Plain k.1 k.2 result → s.memo[k]? = some (.final a) →
    result = .ok a
  involved : ∀ (k : RuleId × Nat) result a id, r.Plain k.1 k.2 result →
    s.memo[k]? ≠ some (.involved a id)
  inProgress : ∀ (k : RuleId × Nat) (number : Nat), s.memo[k]? = some (.inProgress number) →
    r.Endless k.1 k.2

theorem Head.eq_of_unwritten {h h' : Head} (heq : h'.unwritten = h.unwritten) :
    h'.rule = h.rule ∧ h'.pos = h.pos ∧ h'.involved = h.involved ∧ h'.eligible = h.eligible := by
  simpa [Head.unwritten] using heq

namespace Session
variable {r : Recognizer} {s s' : Session} {x : RuleId} {pos : Nat}

theorem faithful_start (r : Recognizer) : ({} : Session).Faithful r :=
  ⟨fun k _ _ _ hk => absurd hk (memo_start k _), fun k _ _ _ _ => memo_start k _,
    fun k _ hk => absurd hk (memo_start k _)⟩

/-- Entries that are right in some session each, or of endless applications, are right together. -/
theorem faithful_of_entries (hmemo : ∀ k : RuleId × Nat, r.Endless k.1 k.2 ∨ s'.memo[k]? = none ∨
    ∃ t : Session, t.Faithful r ∧ s'.memo[k]? = t.memo[k]?) : s'.Faithful r := by
  refine ⟨fun k result a hk hmem => ?_, fun k result a id hk hmem => ?_, fun k number hmem => ?_⟩
  · rcases hmemo k with hendless | hnone | ⟨t, ht, heq⟩
    · exact absurd hk hendless.not_plain
    · cases hnone.symm.trans hmem
    · exact ht.final k result a hk (heq ▸ hmem)
  · rcases hmemo k with hendless | hnone | ⟨t, ht, heq⟩
    · exact absurd hk hendless.not_plain
    · cases hnone.symm.trans hmem
    · exact ht.involved k result a id hk (heq ▸ hmem)
  · rcases hmemo k with hendless | hnone | ⟨t, ht, heq⟩
    · exact hendless
    · cases hnone.symm.trans hmem
    · exact ht.inProgress k number (heq ▸ hmem)

/-- To change an entry without a plain meaning, or to forget one, keeps the rest right. -/
theorem Faithful.congr (h : s.Faithful r)
    (hmemo : ∀ k : RuleId × Nat, s'.memo[k]? = s.memo[k]? ∨ s'.memo[k]? = none ∨
      r.Endless k.1 k.2) :
    s'.Faithful r := by
  refine faithful_of_entries fun k => ?_
  rcases hmemo k with heq | hnone | hendless
  · exact .inr (.inr ⟨s, h, heq⟩)
  · exact .inr (.inl hnone)
  · exact .inl hendless

theorem Faithful.insert (h : s.Faithful r) (hx : r.Endless x pos) {e : Entry}
    (hmemo : s'.memo = s.memo.insert (x, pos) e) : s'.Faithful r := by
  refine h.congr fun k => ?_
  by_cases hk : k = (x, pos)
  · subst hk
    exact .inr (.inr hx)
  · rw [hmemo]
    exact .inl (setEntry_other hk e)

/-- An entry may be copied from one session to another. -/
theorem Faithful.insert_of {t : Session} (h : s.Faithful r) (ht : t.Faithful r) {e : Entry}
    (he : t.memo[(x, pos)]? = some e) (hmemo : s'.memo = s.memo.insert (x, pos) e) :
    s'.Faithful r := by
  refine faithful_of_entries fun k => .inr (.inr ?_)
  by_cases hk : k = (x, pos)
  · subst hk
    refine ⟨t, ht, ?_⟩
    rw [hmemo, he]
    exact Std.HashMap.getElem?_insert_self
  · refine ⟨s, h, ?_⟩
    rw [hmemo]
    exact setEntry_other hk e

/-- Entries without a plain meaning are left as they are. -/
theorem Aside.memo_eq (h : s.Aside r s') (hx : r.Endless x pos) :
    s'.memo[(x, pos)]? = s.memo[(x, pos)]? := by
  rcases h.memo (x, pos) with heq | ⟨a, ha, _⟩
  · exact heq
  · exact absurd ha hx.not_plain

/-- Heads are as they were, but for what they saw remembered. -/
theorem Aside.head {id : HeadId} {hd' : Head} (h : s.Aside r s') (hs' : s'.heads[id]? = some hd') :
    ∃ hd, s.heads[id]? = some hd ∧ hd'.unwritten = hd.unwritten := by
  have hheads := h.heads id
  rw [hs', Option.map_some] at hheads
  obtain ⟨hd, hs, heq⟩ := Option.map_eq_some_iff.mp hheads.symm
  exact ⟨hd, hs, heq.symm⟩

theorem Aside.head_of {id : HeadId} {hd : Head} (h : s.Aside r s') (hs : s.heads[id]? = some hd) :
    ∃ hd', s'.heads[id]? = some hd' ∧ hd'.unwritten = hd.unwritten := by
  have hheads := h.heads id
  rw [hs, Option.map_some] at hheads
  exact Option.map_eq_some_iff.mp hheads

theorem Faithful.aside (h : s.Faithful r) (haside : s.Aside r s') : s'.Faithful r := by
  refine ⟨fun k result a hk hmem => ?_, fun k result a id hk hmem => ?_, fun k number hmem => ?_⟩
  · rcases haside.memo k with heq | ⟨b, hb, heq⟩
    · exact h.final k result a hk (heq ▸ hmem)
    · cases heq.symm.trans hmem
      exact hk.unique hb
  · rcases haside.memo k with heq | ⟨b, hb, heq⟩
    · exact h.involved k result a id hk (heq ▸ hmem)
    · cases heq.symm.trans hmem
  · rcases haside.memo k with heq | ⟨b, hb, heq⟩
    · exact h.inProgress k number (heq ▸ hmem)
    · cases heq.symm.trans hmem

/-- A faithful session contradicts no plain meaning, if only endless applications are on offer. -/
theorem Faithful.unbiased (h : s.Faithful r)
    (heligible : ∀ y p, s.isEligible y p = true → r.Endless y p) : s.Unbiased r :=
  ⟨h.final, h.involved, fun k _ hk hel => (heligible k.1 k.2 hel).not_plain hk⟩

end Session

/-- In a faithful session a plain application ends as it means, and all that it does is to remember
such answers. -/
theorem Recognizer.applyWithin_plain {r : Recognizer} {s : Session} {x : RuleId} {pos : Nat}
    (hlimit : r.stepLimit = none) (depth : Nat) (h : s.Faithful r)
    (heligible : ∀ y p, s.isEligible y p = true → r.Endless y p) {result : Except EvalError Answer}
    (hplain : r.Plain x pos result) :
    Ends (r.applyWithin depth x pos) s
      (fun a s' => (∃ b, result = .ok b ∧ SameAt pos a b) ∧ s.Aside r s')
      fun e s' => Excuses result e ∧ s.Aside r s' := by
  obtain ⟨n, hn⟩ := hplain
  have hidle : ∀ (k : RuleId × Nat) (number : Nat),
      s.memo[k]? = some (.inProgress number) → (r.interpret n k.1 k.2).run = none :=
    fun k number hk => h.inProgress k number hk n
  exact applyWithin_mirrors hlimit n depth x pos (h.unbiased heligible) hidle result hn s (.refl s)

end Packrat
