import Packrat.Proofs.Recognition.Ends
import Packrat.Proofs.Recognition.Plain

/-! Bodies mean what they mean in the plain interpretation.

`Mirrors I V w p` says that the recognition `w` ends as the interpretation `p` does if `p` comes
to an end: with a value that `V` relates to that of `p`, or with the error of `p`. It may also
stop for a bound or for a number that belongs to no rule, which is excluded elsewhere.
What is done one step after another mirrors what is interpreted one step after another
(`Mirrors.bind`), and so the bodies mirror their plain meaning if the applications do. -/
namespace Packrat
variable {α β γ δ : Type}

/-- Why a recognition may stop where the interpretation has a result: for the error that it is, or
for a reason that says nothing about the meaning of rules. -/
def Excuses (result : Except EvalError β) : Stop → Prop
  | .error e => result = .error e
  | .dangling _ | .exhausted => True

def Mirrors (I : Session → Prop) (V : α → β → Prop) (w : Recognition α)
    (p : Interpretation β) : Prop :=
  ∀ result, p.run = some result → Upholds I (Excuses result) w fun a => ∃ b, result = .ok b ∧ V a b

namespace Mirrors
variable {I : Session → Prop} {V : α → β → Prop} {W : γ → δ → Prop} {w : Recognition α}
  {p : Interpretation β}

theorem pure {a : α} {b : β} (h : V a b) : Mirrors I V (pure a) (pure b) := by
  intro result hr
  cases hr
  exact .pure ⟨b, rfl, h⟩

theorem error (e : EvalError) : Mirrors I V (throw (.error e)) (throw e) := by
  intro result hr
  cases hr
  exact .throw rfl

theorem exhausted : Mirrors I V (throw .exhausted) p := fun _ _ => .throw trivial

theorem bind {f : α → Recognition γ} {g : β → Interpretation δ} (h : Mirrors I V w p)
    (hf : ∀ a b, V a b → Mirrors I W (f a) (g b)) : Mirrors I W (w >>= f) (p >>= g) := by
  intro result hr
  rw [Interpretation.run_bind] at hr
  obtain ⟨o, ho, hr⟩ := Option.bind_eq_some_iff.mp hr
  cases o with
  | ok b =>
    refine .bind ((h _ ho).mono (fun a ha => ha) fun e he => ?_) fun a ⟨b', hb, hab⟩ => ?_
    · cases e with
      | error e => exact nomatch he
      | _ => trivial
    · cases hb
      exact hf a b hab result hr
  | error e =>
    cases hr
    refine .bind ((h _ ho).mono (fun a ha => ha) fun e' he => ?_) fun a ⟨b', hb, _⟩ => nomatch hb
    cases e' with
    | error e' =>
      cases he
      exact rfl
    | _ => trivial

end Mirrors

open Interpretation

/-- The same answer, for an application at the position. -/
def SameAt (pos : Nat) (a b : Answer) : Prop := a = b ∧ a.start = pos

section
variable {I : Session → Prop} {rec : RuleId → Nat → Recognition Answer} {plain : RuleId → Nat →
  Interpretation Answer} (hrec : ∀ x q, Mirrors I (SameAt q) (rec x q) (plain x q))
include hrec

theorem matchEach_mirrors (rules : List RuleId) (pos : Nat) :
    Mirrors I
      (fun o parts => o = parts.map fun l : List Answer => (l, pos + (l.map (·.length)).sum))
        (Recognizer.matchEach rec rules pos) (each plain rules pos) := by
  induction rules generalizing pos with
  | nil => exact .pure rfl
  | cons x rest ih =>
    refine .bind (hrec x pos) fun a b hab => ?_
    obtain ⟨rfl, hstart⟩ := hab
    split
    · rw [Answer.stop, hstart]
      refine .bind (ih _) fun o parts ho => .pure ?_
      subst ho
      cases parts with
      | none => rfl
      | some l => simp [Nat.add_assoc]
    · exact .pure rfl

theorem matchFirst_mirrors (rules : List RuleId) (pos : Nat) :
    Mirrors I Eq (Recognizer.matchFirst rec pos rules) (first plain pos rules) := by
  induction rules with
  | nil => exact .pure rfl
  | cons x rest ih =>
    refine .bind (hrec x pos) fun a b hab => ?_
    obtain ⟨rfl, _⟩ := hab
    split
    · exact .pure rfl
    · exact ih

theorem matchMany_mirrors (x : RuleId) (m n : Nat) (items : List Answer) (pos : Nat) :
    Mirrors I (fun o more => o = (more.reverse ++ items, pos + (more.map (·.length)).sum))
      (Recognizer.matchMany rec x m items pos) (many plain x n pos) := by
  induction m generalizing n items pos with
  | zero => exact .exhausted
  | succ m ih =>
    cases n with
    | zero => exact nofun
    | succ n =>
      refine .bind (hrec x pos) fun a b hab => ?_
      obtain ⟨rfl, hstart⟩ := hab
      by_cases hgo : a.matched = true ∧ a.length ≠ 0
      · rw [if_pos hgo, if_pos (by simpa using hgo), Answer.stop, hstart]
        rw [← bind_pure (Recognizer.matchMany rec x m (a :: items) (pos + a.length))]
        refine .bind (ih n _ _) fun o more ho => .pure ?_
        simp [ho, Nat.add_assoc]
      · rw [if_neg hgo, if_neg (by simpa using hgo)]
        exact .pure (by simp)

/-- A body ends as its plain meaning does. -/
theorem body_mirrors (r : Recognizer) (n : Nat) (x : RuleId) (pos : Nat) {found : Rule}
    (hfound : r.graph.rule? x = some found) :
    Mirrors I (SameAt pos) (Recognizer.body rec r x pos)
      (Interpretation.body plain r.buffer n x pos found.body) := by
  have hsub : ∀ k : Nat, pos + k - pos = k := Nat.add_sub_cancel_left pos
  rw [Recognizer.body, Recognizer.orStop_rule hfound, pure_bind]
  cases found.body with
  | literal text =>
    rw [Interpretation.body]
    dsimp only
    split
    · exact .pure ⟨rfl, rfl⟩
    · exact .pure ⟨rfl, rfl⟩
  | pattern p =>
    rw [Interpretation.body]
    dsimp only
    cases (r.buffer.suffix? pos).bind p.matchLength with
    | none => exact .pure ⟨rfl, rfl⟩
    | some length =>
      cases length with
      | zero => exact .error _
      | succ k => exact .pure ⟨rfl, rfl⟩
  | sequence rules =>
    cases rules with
    | nil => exact .pure ⟨rfl, rfl⟩
    | cons y rest =>
      dsimp only
      rw [if_neg (show ¬ (y :: rest).isEmpty = true from Bool.false_ne_true)]
      refine .bind (matchEach_mirrors hrec (y :: rest) pos) fun o parts ho => ?_
      subst ho
      cases parts with
      | none => exact .pure ⟨rfl, rfl⟩
      | some l => exact .pure ⟨by rw [hsub]; rfl, rfl⟩
  | choice rules =>
    refine .bind (matchFirst_mirrors hrec rules pos) fun o o' ho => ?_
    subst ho
    cases o with
    | none => exact .pure ⟨rfl, rfl⟩
    | some a => exact .pure ⟨by simp [joined], rfl⟩
  | optional y =>
    refine .bind (hrec y pos) fun a b hab => ?_
    obtain ⟨rfl, _⟩ := hab
    split
    · exact .pure ⟨by simp [joined], rfl⟩
    · exact .pure ⟨rfl, rfl⟩
  | repetition y =>
    refine .bind (matchMany_mirrors hrec y _ n [] pos) fun o more ho => .pure ?_
    subst ho
    exact ⟨by simp [joined, hsub], rfl⟩
  | epsilon => exact .pure ⟨rfl, rfl⟩
  | endOfInput =>
    rw [Interpretation.body]
    dsimp only
    split
    · exact .pure ⟨rfl, rfl⟩
    · exact .pure ⟨rfl, rfl⟩
  | reference target => exact .error _

end

end Packrat
