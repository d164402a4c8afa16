import Packrat.Proofs.Recognition.Refinement
import Packrat.Proofs.Recognition.Termination
import Mathlib.Data.List.Forall2

/-! What is remembered does not show: plain applications in one session, in whatever order,
answer what they mean.

The bounds on depth and loops are never met (`apply_upholds`), so what the simulation excuses
does not happen, and each application leaves the session fit for the next one. -/
namespace Packrat.Recognizer
variable {r : Recognizer}

/-- What applications in one session, one after the other, come to. -/
def applyAll (r : Recognizer) : List (RuleId × Nat) → Session → List (Except Stop Answer)
  | [], _ => []
  | (x, pos) :: rest, s => (r.apply x pos s).1 :: r.applyAll rest (r.apply x pos s).2

/-- How an application ends that is plain. -/
def plainOutcome : Except EvalError Answer → Except Stop Answer
  | .ok a => .ok a
  | .error e => .error (.error e)

/-- A plain application, whatever was applied before, as long as it contradicts nothing. -/
theorem apply_plain (hlimit : r.stepLimit = none) {x : RuleId} {pos : Nat}
    (hclosed : r.graph.ClosedFrom x) {result : Except EvalError Answer}
    (hplain : r.Plain x pos result) {s : Session} (hs : Disciplined r {} s)
    (hunbiased : s.Unbiased r) :
    (r.apply x pos s).1 = plainOutcome result ∧ s.Aside r (r.apply x pos s).2 := by
  obtain ⟨n, hn⟩ := hplain
  by_cases hx : r.graph.contains x = true
  · have hidle : ∀ (k : Key) (number : Nat),
        s.memo[k]? = some (.inProgress number) → (r.interpret n k.1 k.2).run = none := by
      intro k number hk
      obtain ⟨a, ha, _⟩ := hs.remembered.underWay hk
      cases ha
    have hmirror :=
      applyWithin_mirrors hlimit n r.depthBound x pos hunbiased hidle result hn s (.refl s)
    have hends := apply_upholds r x pos s hs
    rw [apply, if_pos hx] at hends ⊢
    obtain ⟨a, s', hrun, ⟨⟨b, hb, hab, _⟩, haside⟩, _⟩ |
        ⟨e, s', hrun, ⟨hexcuse, haside⟩, hpermitted, _⟩ :=
      (hmirror.and hends).cases
    · rw [hrun, hb, ← hab]
      exact ⟨rfl, haside⟩
    · rw [hrun]
      cases e with
      | error e =>
        rw [show result = .error e from hexcuse]
        exact ⟨rfl, haside⟩
      | dangling i => exact absurd rfl (hpermitted.2 hx hclosed i)
      | exhausted => exact absurd rfl hpermitted.1
  · have hunknown : r.graph.rule? x = none := by
      cases h : r.graph.rule? x with
      | none => rfl
      | some found => exact absurd (RuleGraph.contains_of_rule? h) hx
    cases n with
    | zero => cases hn
    | succ n =>
      rw [interpret, hunknown] at hn
      cases hn
      rw [apply, if_neg hx]
      exact ⟨rfl, .refl s⟩

theorem unbiased_start (r : Recognizer) : ({} : Session).Unbiased r := by
  refine ⟨fun k _ a _ hk => absurd hk (memo_start k _), fun k _ a id _ => memo_start k _,
    fun k _ _ => ?_⟩
  exact not_eligible Std.HashMap.getElem?_empty

/-- Plain applications in a new session answer what they mean, in whatever order they are made. -/
theorem applyAll_plain (hclosed : r.graph.Closed) (hlimit : r.stepLimit = none)
    {calls : List (RuleId × Nat)} {results : List (Except EvalError Answer)}
    (hplain : List.Forall₂ (fun call result => r.Plain call.1 call.2 result) calls results) :
    r.applyAll calls {} = results.map plainOutcome := by
  have hrun : ∀ s, Disciplined r {} s → s.Unbiased r →
      r.applyAll calls s = results.map plainOutcome := by
    induction hplain with
    | nil => exact fun _ _ _ => rfl
    | @cons call result rest results hcall _ ih =>
      intro s hs hunbiased
      obtain ⟨hresult, haside⟩ := apply_plain hlimit (hclosed.closedFrom call.1) hcall hs hunbiased
      rw [applyAll, hresult, List.map_cons, ih _ (apply_disciplined call.1 call.2 hs)
        (haside.unbiased hunbiased)]
  exact hrun {} (.start r) (unbiased_start r)

theorem applyAll_plain_items :
    let g : RuleGraph := ⟨#[⟨"items", .repetition ⟨1⟩, {}⟩, ⟨"item", .literal "x", {}⟩]⟩
    let r : Recognizer := { graph := g, buffer := .ofList ['x', 'x'] }
    let items : Answer := .node ⟨0⟩ 0 2 [.node ⟨1⟩ 0 1 [], .node ⟨1⟩ 1 1 []]
    g.Closed ∧ r.stepLimit = none ∧ r.Plain ⟨1⟩ 2 (.ok (.fail ⟨1⟩ 2)) ∧ r.Plain ⟨0⟩ 0 (.ok items) ∧
      r.applyAll [(⟨1⟩, 2), (⟨0⟩, 0), (⟨0⟩, 0)] {} = [.ok (.fail ⟨1⟩ 2), .ok items, .ok items] := by
  intro g r items
  have hclosed : g.Closed := by decide
  have hitem : r.Plain ⟨1⟩ 2 (.ok (.fail ⟨1⟩ 2)) := ⟨1, rfl⟩
  have hitems : r.Plain ⟨0⟩ 0 (.ok items) := ⟨4, rfl⟩
  have hcalls : List.Forall₂ (fun call result => r.Plain call.1 call.2 result)
      [(⟨1⟩, 2), (⟨0⟩, 0), (⟨0⟩, 0)] [.ok (.fail ⟨1⟩ 2), .ok items, .ok items] :=
    .cons hitem (.cons hitems (.cons hitems .nil))
  exact ⟨hclosed, rfl, hitem, hitems, applyAll_plain hclosed rfl hcalls⟩

end Packrat.Recognizer
