import Packrat.Recognition.Apply
import Mathlib.Algebra.Ring.Nat

/-! The plain meaning of rules: what they match if nothing is remembered.

`Recognizer.interpret` follows the bodies of rules by recursion alone, as deep as it is told
to. An application is plain if this comes to an end (`Recognizer.Plain`): with an
answer, or with an error. A rule that is applied again where it is under way is never
plain. To go deeper changes nothing about a result (`interpret_mono`), so an application
has one plain result at most (`Plain.unique`). -/
namespace Packrat

/-- An answer or an error, if the interpretation comes to an end. -/
abbrev Interpretation := ExceptT EvalError Option

namespace Interpretation
section
variable (rec : RuleId → Nat → Interpretation Answer)

/-- Rules one after the other, each where the one before ends. -/
def each : List RuleId → Nat → Interpretation (Option (List Answer))
  | [], _ => return some []
  | x :: rest, pos => do
    let a ← rec x pos
    if a.matched then return (← each rest (pos + a.length)).map (a :: ·) else return none

/-- The first rule that matches. -/
def first (pos : Nat) : List RuleId → Interpretation (Option Answer)
  | [] => return none
  | x :: rest => do
    let a ← rec x pos
    if a.matched then return some a else first pos rest

/-- A rule until it matches nothing, at most so many times. -/
def many (x : RuleId) : Nat → Nat → Interpretation (List Answer)
  | 0, _ => ExceptT.mk none
  | n + 1, pos => do
    let a ← rec x pos
    if a.matched ∧ a.length ≠ 0 then return a :: (← many x n (pos + a.length)) else return []

/-- A match that is as long as its parts together. -/
def joined (x : RuleId) (pos : Nat) (parts : List Answer) : Answer :=
  .node x pos (parts.map (·.length)).sum parts

/-- The meaning of a body, where a repetition has at most so many items. -/
def body (b : Buffer) (n : Nat) (x : RuleId) (pos : Nat) : RuleBody → Interpretation Answer
  | .literal text =>
    return if (b.suffix? pos).any text.toList.isPrefixOf then .node x pos text.utf8ByteSize []
      else .fail x pos
  | .pattern p =>
    match (b.suffix? pos).bind p.matchLength with
    | some 0 => throw (.emptyMatch x p.source pos)
    | some length => return .node x pos length []
    | none => return .fail x pos
  | .sequence [] => return .fail x pos
  | .sequence (y :: rest) => do
    match ← each rec (y :: rest) pos with
    | some parts => return joined x pos parts
    | none => return .fail x pos
  | .choice rules => do
    match ← first rec pos rules with
    | some a => return joined x pos [a]
    | none => return .fail x pos
  | .optional y => do
    let a ← rec y pos
    return joined x pos (if a.matched then [a] else [])
  | .repetition y => return joined x pos (← many rec y n pos)
  | .epsilon => return joined x pos []
  | .endOfInput => return if pos = b.size then joined x pos [] else .fail x pos
  | .reference _ => throw (.unresolvedReference x)

end
end Interpretation

open Interpretation

/-- What a rule means at a position, as far as that can be told by so many levels of recursion. -/
def Recognizer.interpret (r : Recognizer) : Nat → RuleId → Nat → Interpretation Answer
  | 0, _, _ => ExceptT.mk none
  | n + 1, x, pos =>
    match r.graph.rule? x with
    | some found => Interpretation.body (r.interpret n) r.buffer n x pos found.body
    | none => throw (.unknownRule x)

/-- The plain interpretation comes to an end, with this result. -/
def Recognizer.Plain (r : Recognizer) (x : RuleId) (pos : Nat)
    (result : Except EvalError Answer) : Prop :=
  ∃ n, (r.interpret n x pos).run = some result

namespace Interpretation
variable {α β : Type}

theorem run_bind (p : Interpretation α) (f : α → Interpretation β) : (p >>= f).run =
    p.run.bind fun o => match o with | .ok a => (f a).run | .error e => some (.error e) := by
  simp only [ExceptT.run, bind, ExceptT.bind, ExceptT.mk, Option.bind]
  cases p with
  | none => rfl
  | some o => cases o <;> rfl

/-- The second interpretation comes to an end as the first does, if that does. -/
def Extends (p p' : Interpretation α) : Prop := ∀ result, p.run = some result → p'.run = some result

namespace Extends
variable {p p' : Interpretation α}

theorem refl (p : Interpretation α) : Extends p p := fun _ h => h

theorem bind {f f' : α → Interpretation β} (h : Extends p p') (hf : ∀ a, Extends (f a) (f' a)) :
    Extends (p >>= f) (p' >>= f') := by
  intro result
  rw [run_bind, run_bind]
  intro hr
  obtain ⟨o, ho, hr⟩ := Option.bind_eq_some_iff.mp hr
  rw [h o ho, Option.bind_some]
  cases o with
  | ok a => exact hf a result hr
  | error e => exact hr

end Extends

section
variable {rec rec' : RuleId → Nat → Interpretation Answer} (hrec : ∀ x q,
  Extends (rec x q) (rec' x q))
include hrec

theorem each_extends (rules : List RuleId) (pos : Nat) :
    Extends (each rec rules pos) (each rec' rules pos) := by
  induction rules generalizing pos with
  | nil => exact .refl _
  | cons x rest ih =>
    refine .bind (hrec x pos) fun a => ?_
    split
    · exact .bind (ih _) fun _ => .refl _
    · exact .refl _

theorem first_extends (pos : Nat) (rules : List RuleId) :
    Extends (first rec pos rules) (first rec' pos rules) := by
  induction rules with
  | nil => exact .refl _
  | cons x rest ih =>
    refine .bind (hrec x pos) fun a => ?_
    split
    · exact .refl _
    · exact ih

theorem many_extends (x : RuleId) (n pos : Nat) :
    Extends (many rec x n pos) (many rec' x (n + 1) pos) := by
  induction n generalizing pos with
  | zero => exact nofun
  | succ n ih =>
    refine .bind (hrec x pos) fun a => ?_
    split
    · exact .bind (ih _) fun _ => .refl _
    · exact .refl _

theorem body_extends (b : Buffer) (n : Nat) (x : RuleId) (pos : Nat) (found : RuleBody) :
    Extends (body rec b n x pos found) (body rec' b (n + 1) x pos found) := by
  cases found with
  | sequence rules =>
    cases rules with
    | nil => exact .refl _
    | cons y rest => exact .bind (each_extends hrec (y :: rest) pos) fun _ => .refl _
  | choice rules => exact .bind (first_extends hrec pos rules) fun _ => .refl _
  | optional y => exact .bind (hrec y pos) fun _ => .refl _
  | repetition y => exact .bind (many_extends hrec y n pos) fun _ => .refl _
  | _ => exact .refl _

end

/-- If the interpretation ends with a value, it is such a value. -/
def Delivers (p : Interpretation α) (Q : α → Prop) : Prop := ∀ a, p.run = some (.ok a) → Q a

namespace Delivers
variable {Q : β → Prop}

theorem pure {b : β} (h : Q b) : Delivers (pure b) Q := by
  intro b' hb
  cases hb
  exact h

theorem bind {p : Interpretation α} {f : α → Interpretation β} (h : ∀ a, Delivers (f a) Q) :
    Delivers (p >>= f) Q := by
  intro b hb
  rw [run_bind] at hb
  obtain ⟨o, ho, hb⟩ := Option.bind_eq_some_iff.mp hb
  cases o with
  | ok a => exact h a b hb
  | error e => cases hb

end Delivers

theorem body_delivers (rec : RuleId → Nat → Interpretation Answer) (b : Buffer) (n : Nat)
    (x : RuleId) (pos : Nat) (found : RuleBody) :
    Delivers (body rec b n x pos found) fun a => a.rule = x ∧ a.start = pos := by
  cases found with
  | literal text =>
    refine .pure ?_
    split <;> exact ⟨rfl, rfl⟩
  | pattern p =>
    rw [body]
    split
    · exact nofun
    · exact .pure ⟨rfl, rfl⟩
    · exact .pure ⟨rfl, rfl⟩
  | sequence rules =>
    cases rules with
    | nil => exact .pure ⟨rfl, rfl⟩
    | cons y rest =>
      refine .bind fun o => ?_
      cases o <;> exact .pure ⟨rfl, rfl⟩
  | choice rules =>
    refine .bind fun o => ?_
    cases o <;> exact .pure ⟨rfl, rfl⟩
  | optional y => exact .bind fun _ => .pure ⟨rfl, rfl⟩
  | repetition y => exact .bind fun _ => .pure ⟨rfl, rfl⟩
  | epsilon => exact .pure ⟨rfl, rfl⟩
  | endOfInput =>
    refine .pure ?_
    split <;> exact ⟨rfl, rfl⟩
  | reference target => exact nofun

end Interpretation

namespace Recognizer
variable {r : Recognizer} {x : RuleId} {pos : Nat} {result result' : Except EvalError Answer}

theorem interpret_extends (r : Recognizer) (n : Nat) (x : RuleId) (pos : Nat) :
    Extends (r.interpret n x pos) (r.interpret (n + 1) x pos) := by
  induction n generalizing x pos with
  | zero => exact nofun
  | succ n ih =>
    rw [interpret, interpret]
    split
    · exact body_extends ih _ _ _ _ _
    · exact .refl _

/-- To go deeper does not change a result. -/
theorem interpret_mono {n m : Nat} (h : (r.interpret n x pos).run = some result) (hle : n ≤ m) :
    (r.interpret m x pos).run = some result := by
  induction hle with
  | refl => exact h
  | step _ ih => exact interpret_extends r _ x pos result ih

theorem Plain.unique (h : r.Plain x pos result) (h' : r.Plain x pos result') :
    result = result' := by
  obtain ⟨n, hn⟩ := h
  obtain ⟨m, hm⟩ := h'
  have hn' := interpret_mono hn (Nat.le_max_left n m)
  rw [interpret_mono hm (Nat.le_max_right n m)] at hn'
  exact (Option.some.inj hn').symm

theorem Plain.at {a : Answer} (h : r.Plain x pos (.ok a)) : a.rule = x ∧ a.start = pos := by
  obtain ⟨n, hn⟩ := h
  cases n with
  | zero => cases hn
  | succ n =>
    rw [interpret] at hn
    split at hn
    · exact body_delivers _ _ _ _ _ _ a hn
    · cases hn

end Recognizer

end Packrat
