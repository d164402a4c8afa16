import Packrat.Rules.Binding
import Packrat.Proofs.Rules.Closed

/-! Rules that are resolved, and what placeholders stand for.

Rules are resolved when they are all there, none is a placeholder, and they refer only to
each other (`RuleGraph.Resolved`). Then each of them stands for itself, and so does whatever they
lead to. What a placeholder stands for is never a placeholder (`followWithin_plain`). -/
namespace Packrat

namespace RuleBody

@[simp] theorem withChildren_children (b : RuleBody) : b.withChildren b.children = b := by
  cases b with
  | reference target => cases target <;> rfl
  | _ => rfl

@[simp] theorem isReference_withChildren (b : RuleBody) (rules : List RuleId) :
    (b.withChildren rules).isReference = b.isReference := by
  unfold withChildren
  split <;> rfl

theorem children_withChildren {b : RuleBody} {rules : List RuleId}
    (h : rules.length = b.children.length) : (b.withChildren rules).children = rules := by
  cases b with
  | sequence _ | choice _ => rfl
  | optional _ | repetition _ =>
    obtain ⟨y, rfl⟩ := List.length_eq_one_iff.mp h
    rfl
  | reference target =>
    cases target with
    | none => exact (List.length_eq_zero_iff.mp h).symm
    | some _ =>
      obtain ⟨y, rfl⟩ := List.length_eq_one_iff.mp h
      rfl
  | _ => exact (List.length_eq_zero_iff.mp h).symm

end RuleBody

namespace RuleGraph

/-- The rules are there, and refer only to each other. -/
def Encloses (g : RuleGraph) (P : RuleId → Prop) : Prop :=
  ∀ x, P x → ∃ found, g.rule? x = some found ∧ ∀ y ∈ found.body.children, P y

/-- The rules are there, none is a placeholder, and they refer only to each other. -/
def Resolved (g : RuleGraph) (P : RuleId → Prop) : Prop :=
  ∀ x, P x → ∃ found, g.rule? x = some found ∧ found.body.isReference = false ∧
    ∀ y ∈ found.body.children, P y

section
variable {g g' : RuleGraph} {P P' : RuleId → Prop} {x y origin : RuleId}

/-- In a closed graph all rules together refer only to each other. -/
theorem Closed.encloses (h : g.Closed) : g.Encloses (g.contains · = true) := by
  intro x hx
  obtain ⟨found, hfound⟩ := rule?_of_contains hx
  exact ⟨found, hfound, h found (Array.mem_toList_iff.mpr (Array.mem_of_getElem? hfound))⟩

namespace Encloses

theorem refers (h : g.Encloses P) (hx : P x) (hxy : g.Refers x y) : P y := by
  obtain ⟨found, hfound, hy⟩ := hxy
  obtain ⟨found', hfound', hchildren⟩ := h x hx
  cases hfound.symm.trans hfound'
  exact hchildren y hy

theorem leadsTo (h : g.Encloses P) (hx : P x) (hxy : Relation.ReflTransGen g.Refers x y) : P y := by
  induction hxy with
  | refl => exact hx
  | tail _ hlast ih => exact h.refers ih hlast

end Encloses

namespace Resolved

theorem encloses (h : g.Resolved P) : g.Encloses P := by
  intro x hx
  obtain ⟨found, hfound, _, hchildren⟩ := h x hx
  exact ⟨found, hfound, hchildren⟩

theorem congr (h : g.Resolved P) (hrule : ∀ x, P x → g'.rule? x = g.rule? x) : g'.Resolved P := by
  intro x hx
  rw [hrule x hx]
  exact h x hx

theorem or (h : g.Resolved P) (h' : g.Resolved P') : g.Resolved fun x => P x ∨ P' x := by
  rintro x (hx | hx)
  · obtain ⟨found, hfound, hplain, hchildren⟩ := h x hx
    exact ⟨found, hfound, hplain, fun y hy => .inl (hchildren y hy)⟩
  · obtain ⟨found, hfound, hplain, hchildren⟩ := h' x hx
    exact ⟨found, hfound, hplain, fun y hy => .inr (hchildren y hy)⟩

theorem refers (h : g.Resolved P) (hx : P x) (hxy : g.Refers x y) : P y := h.encloses.refers hx hxy

theorem leadsTo (h : g.Resolved P) (hx : P x) (hxy : Relation.ReflTransGen g.Refers x y) : P y :=
  h.encloses.leadsTo hx hxy

theorem contains (h : g.Resolved P) (hx : P x) : g.contains x = true := by
  obtain ⟨found, hfound, _⟩ := h x hx
  exact contains_of_rule? hfound

theorem closedFrom (h : g.Resolved P) (hx : P x) : g.ClosedFrom x := fun _ _ hy hz =>
  h.contains (h.refers (h.leadsTo hx hy) hz)

theorem plainFrom (h : g.Resolved P) (hx : P x) : g.PlainFrom x := by
  intro y found hy hfound
  obtain ⟨found', hfound', hplain, _⟩ := h y (h.leadsTo hx hy)
  cases hfound.symm.trans hfound'
  exact hplain

end Resolved

/-! ### Following bindings -/

/-- What a placeholder stands for is no placeholder. -/
theorem followWithin_plain {n : Nat} (h : g.followWithin origin n x = .ok y) :
    ∃ found, g.rule? y = some found ∧ found.body.isReference = false := by
  induction n generalizing x with
  | zero => cases h
  | succ n ih =>
    rw [followWithin, rule] at h
    cases hx : g.rule? x with
    | none => rw [hx] at h; cases h
    | some found =>
      rw [hx] at h
      simp only [bind, Except.bind] at h
      cases hb : found.body with
      | reference target =>
        rw [hb] at h
        cases target with
        | none => cases h
        | some target => exact ih h
      | _ =>
        rw [hb] at h
        cases h
        exact ⟨found, hx, by rw [hb]; rfl⟩

theorem followWithin_self {n : Nat} {found : Rule} (hfound : g.rule? x = some found)
    (hplain : found.body.isReference = false) : g.followWithin origin (n + 1) x = .ok x := by
  simp only [followWithin, rule, hfound, bind, Except.bind]
  cases hb : found.body with
  | reference target => rw [hb] at hplain; cases hplain
  | _ => rfl

theorem follow_self {found : Rule} (hfound : g.rule? x = some found)
    (hplain : found.body.isReference = false) :
    g.follow x = .ok x := followWithin_self hfound hplain

theorem Resolved.follow (h : g.Resolved P) (hx : P x) : g.follow x = .ok x := by
  obtain ⟨found, hfound, hplain, _⟩ := h x hx
  exact follow_self hfound hplain

/-! ### Rewriting bodies -/

theorem rule?_modify (g : RuleGraph) (x y : RuleId) (f : Rule → Rule) :
    (g.modify x f).rule? y = if y = x then (g.rule? y).map f else g.rule? y := by
  have hindex : x.index = y.index ↔ y = x :=
    ⟨fun h => by cases x; cases y; exact congrArg _ h.symm, fun h => h ▸ rfl⟩
  simp only [modify, rule?, Array.getElem?_modify, hindex]

theorem rule?_setBody (g : RuleGraph) (x y : RuleId) (body : RuleBody) :
    (g.setBody x body).rule? y =
      if y = x then (g.rule? y).map fun found => { found with body } else g.rule? y :=
    rule?_modify ..

end

end RuleGraph

end Packrat
