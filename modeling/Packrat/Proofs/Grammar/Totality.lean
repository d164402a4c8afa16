import Packrat.Grammar.LeftCorner
import Packrat.Proofs.Grammar.NullClosure
import Packrat.Proofs.Rules.Walk

/-! Rules that refer only to each other can be analyzed.

Analysis looks up the rules that it lists, and those that they refer to. All of these belong to the
graph where the listed rules are resolved, so that each part of the analysis goes through. -/
namespace Packrat

theorem mem_of_uptoFirstNot {α : Type} {p : α → Bool} {l : List α} {a : α}
    (h : a ∈ uptoFirstNot p l) : a ∈ l := by
  induction l with
  | nil => exact h
  | cons b rest ih =>
    unfold uptoFirstNot at h
    split at h
    · exact List.mem_cons.mpr ((List.mem_cons.mp h).imp_right ih)
    · exact List.mem_cons.mpr (.inl (List.mem_singleton.mp h))

theorem Rule.mem_children_of_firstCalls {nullable : Std.HashSet RuleId} {r : Rule} {x : RuleId}
    (h : x ∈ r.firstCalls nullable) : x ∈ r.body.children := by
  obtain ⟨name, body, flags⟩ := r
  cases body with
  | sequence rules => exact mem_of_uptoFirstNot h
  | choice _ | optional _ | repetition _ => exact h
  | literal _ | pattern _ | epsilon | endOfInput | reference _ => cases h

namespace RuleGraph
variable {g : RuleGraph} {known nullable : Std.HashSet RuleId} {rules : List RuleId} {x : RuleId}

theorem isNullable_ok (hx : g.contains x = true) : ∃ b, g.isNullable known x = .ok b := by
  unfold isNullable
  split
  · exact ⟨true, rfl⟩
  · obtain ⟨found, hfound⟩ := rule_ok hx
    exact ⟨found.flags.nullable, by rw [hfound]; rfl⟩

section
variable {p : RuleId → Except RuleError Bool}

theorem anyM_ok (hp : ∀ x ∈ rules, ∃ b, p x = .ok b) : ∃ b, rules.anyM p = .ok b := by
  induction rules with
  | nil => exact ⟨false, rfl⟩
  | cons x rest ih =>
    refine exists_ok_bind (hp x (List.mem_cons_self ..)) fun b _ => ?_
    cases b
    · exact ih fun y hy => hp y (List.mem_cons_of_mem _ hy)
    · exact ⟨true, rfl⟩

theorem allM_ok (hp : ∀ x ∈ rules, ∃ b, p x = .ok b) : ∃ b, rules.allM p = .ok b := by
  induction rules with
  | nil => exact ⟨true, rfl⟩
  | cons x rest ih =>
    refine exists_ok_bind (hp x (List.mem_cons_self ..)) fun b _ => ?_
    cases b
    · exact ⟨false, rfl⟩
    · exact ih fun y hy => hp y (List.mem_cons_of_mem _ hy)

end

theorem bodyNullable_ok {b : RuleBody} (h : ∀ y ∈ b.children, g.contains y = true) :
    ∃ matched, g.bodyNullable known b = .ok matched := by
  cases b with
  | choice rules => exact anyM_ok fun y hy => isNullable_ok (h y hy)
  | sequence rules =>
    rw [bodyNullable]
    split
    · exact ⟨false, rfl⟩
    · exact allM_ok fun y hy => isNullable_ok (h y hy)
  | _ => exact ⟨_, rfl⟩

/-- The rules belong to the graph, and so do those that they refer to. -/
def Present (g : RuleGraph) (rules : List RuleId) : Prop :=
  ∀ x ∈ rules, ∃ found, g.rule? x = some found ∧ ∀ y ∈ found.body.children, g.contains y = true

theorem Present.tail {rest : List RuleId}
    (h : g.Present (x :: rest)) : g.Present rest := fun y hy =>
  h y (List.mem_cons_of_mem _ hy)

theorem Resolved.present {P : RuleId → Prop} (h : g.Resolved P)
    (hrules : ∀ x ∈ rules, P x) : g.Present rules := by
  intro x hx
  obtain ⟨found, hfound, _, hchildren⟩ := h x (hrules x hx)
  exact ⟨found, hfound, fun y hy => h.contains (hchildren y hy)⟩

theorem nullablePass_ok (h : g.Present rules) :
    ∃ found, g.nullablePass known rules = .ok found := by
  induction rules generalizing known with
  | nil => exact ⟨known, rfl⟩
  | cons x rest ih =>
    unfold nullablePass
    split
    · exact ih h.tail
    obtain ⟨found, hfound, hchildren⟩ := h x (List.mem_cons_self ..)
    refine exists_ok_bind ⟨found, by rw [rule, hfound]⟩ fun found' hfound' => ?_
    rw [rule, hfound] at hfound'
    cases hfound'
    refine exists_ok_bind (bodyNullable_ok hchildren) fun b _ => ?_
    cases b <;> exact ih h.tail

theorem nullablePasses_ok (h : g.Present rules) (n : Nat) :
    ∃ result, g.nullablePasses rules known n = .ok result := by
  induction n generalizing known with
  | zero => exact ⟨_, rfl⟩
  | succ n ih =>
    refine exists_ok_bind (nullablePass_ok h) fun found _ => ?_
    split
    · exact ⟨_, rfl⟩
    · exact exists_ok_bind ih fun _ _ => ⟨_, rfl⟩

theorem nullability_ok (h : g.Present rules) : ∃ result, g.nullability rules = .ok result := by
  have hfilter : ∀ kept : List RuleId,
      ∃ flagged, rules.filterAuxM (fun x => return (← g.rule x).flags.nullable) kept =
      .ok flagged := by
    induction rules with
    | nil => exact fun kept => ⟨kept, rfl⟩
    | cons x rest ih =>
      intro kept
      refine exists_ok_bind ?_ fun b _ => ih h.tail _
      obtain ⟨found, hfound, _⟩ := h x (List.mem_cons_self ..)
      exact ⟨_, flag_eq_ok_iff.mpr ⟨found, hfound, rfl⟩⟩
  refine exists_ok_bind ?_ fun flagged _ => nullablePasses_ok h _
  exact exists_ok_bind (hfilter []) fun _ _ => ⟨_, rfl⟩

theorem cornersOf_ok {P : RuleId → Prop} (h : g.Encloses P) (hx : P x) :
    ∃ corners, g.cornersOf nullable x = .ok corners := by
  obtain ⟨found, hfound, hchildren⟩ := h x hx
  have hcalls : g.firstCalls nullable x = .ok (found.firstCalls nullable) := by
    rw [firstCalls, rule, hfound]
    rfl
  have hfirst : ∀ y ∈ found.firstCalls nullable, P y := fun y hy =>
    hchildren y (Rule.mem_children_of_firstCalls hy)
  have hwalk :=
    (h.walk (·.firstCalls nullable) (fun _ _ hy => Rule.mem_children_of_firstCalls hy) hfirst).1
  refine exists_ok_bind ⟨_, hcalls⟩ fun calls hsame => ?_
  cases hcalls.symm.trans hsame
  exact exists_ok_bind ⟨_, by rw [Walk.all, hwalk]⟩ fun _ _ => ⟨_, rfl⟩

theorem leftCorners_ok {P : RuleId → Prop} (h : g.Encloses P) (hrules : ∀ x ∈ rules, P x) :
    ∃ corners, g.leftCorners nullable rules = .ok corners := by
  have hfold : ∀ corners : Std.HashMap RuleId (Std.HashSet RuleId), ∃ corners',
      rules.foldlM (fun corners x => return corners.insert x (← g.cornersOf nullable x)) corners =
      Except.ok corners' := by
    induction rules with
    | nil => exact fun corners => ⟨corners, rfl⟩
    | cons x rest ih =>
      intro corners
      refine exists_ok_bind ?_ fun _ _ => ih (fun y hy => hrules y (List.mem_cons_of_mem _ hy)) _
      exact exists_ok_bind (cornersOf_ok h (hrules x (List.mem_cons_self ..))) fun _ _ => ⟨_, rfl⟩
  exact exists_ok_bind (hfold ∅) fun _ _ => ⟨_, rfl⟩

end RuleGraph

end Packrat
