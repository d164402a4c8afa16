import Packrat.Proofs.Recognition.Layout
import Packrat.Proofs.Recognition.Transparency

/-! Every derivation that an application returns is genuine: each node is what its rule asks
for, given the nodes below it.

Whatever is remembered of a rule is an answer that it may give (`Remembered.sound`), and
an application gives no other (`apply_upholds`); a derivation is the tree of its answer
(`Derivation.ofAnswer_shows`). -/
namespace Packrat

/-- A derivation by a rule at a position. An attempt that failed is bare; in a match, every node is
a match that its rule justifies by the matches at its children. -/
structure Derivation.Genuine (r : Recognizer) (x : RuleId) (pos : Nat) (d : Derivation) : Prop where
  root : ∃ s, d.step? d.root = some s ∧ s.rule = x ∧ s.start = pos ∧
    (s.matched = false → s.length = 0 ∧ d.forest.children d.root = [])
  node : (∃ s, d.step? d.root = some s ∧ s.matched = true) → ∀ id s, d.step? id = some s →
    ∃ children, (d.forest.children id).map d.step? = children.map some ∧ r.Justified s children

variable {r : Recognizer} {x : RuleId} {pos : Nat} {a : Answer}

theorem Answer.Within.derived {b : Answer} (h : a.Within b) (ha : a.Derived r) : b.Derived r := by
  induction h with
  | refl => exact ha
  | child _ hc ih =>
    obtain ⟨_, hchildren⟩ := ih
    exact hchildren _ hc

/-- The derivation of what an application may answer is genuine. -/
theorem Recognizer.Answers.genuine (h : r.Answers x pos a) :
    (Derivation.ofAnswer a).Genuine r x pos := by
  obtain ⟨label, ⟨hroot, top, htop⟩, hnode⟩ := Derivation.ofAnswer_shows a
  generalize Derivation.ofAnswer a = d at hroot htop hnode
  have hstep : ∀ id n, d.forest.node? id = some n → d.step? id = some (label id).step := by
    intro id n hn
    rw [Derivation.step?, hn, Option.map_some, (hnode id n hn).1]
  have hchildren : ∀ id n, d.forest.node? id = some n → d.forest.children id = n.children := by
    intro id n hn
    rw [Forest.children, hn]
  refine ⟨⟨a.step, by rw [hstep _ top htop, hroot], h.rule_eq, h.start_eq, fun hm => ?_⟩, ?_⟩
  · obtain ⟨hlength, hempty⟩ := h.failed hm
    have hmap := (hnode _ top htop).2.2.1
    rw [hroot, hempty] at hmap
    rw [hchildren _ top htop]
    exact ⟨hlength, List.map_eq_nil_iff.mp hmap⟩
  · rintro ⟨s, hs, hm⟩ id s' hs'
    rw [hstep _ top htop, hroot] at hs
    cases hs
    obtain ⟨n, hn, -⟩ := Option.map_eq_some_iff.mp hs'
    rw [hstep id n hn] at hs'
    cases hs'
    obtain ⟨_, hwithin, hmap, hlt⟩ := hnode id n hn
    obtain ⟨hjustified, _⟩ := hwithin.derived (h.derived hm)
    refine ⟨(label id).children.map (·.step), ?_, hjustified⟩
    rw [hchildren id n hn, ← hmap, List.map_map, List.map_map]
    refine List.map_congr_left fun c hc => ?_
    exact hstep c _ (Array.getElem?_eq_getElem (hlt c hc))

/-- Every derivation that is returned is genuine, whatever was applied before. -/
theorem apply_genuine {s : Session} (hs : r.Reachable s) (ha : (r.apply x pos s).1 = .ok a) :
    (Derivation.ofAnswer a).Genuine r x pos :=
  ((r.apply_upholds x pos s hs.disciplined).of_ok ha).1.genuine

theorem apply_genuine_items :
    let g : RuleGraph := ⟨#[⟨"items", .repetition ⟨1⟩, {}⟩, ⟨"item", .literal "x", {}⟩]⟩
    let r : Recognizer := { graph := g, buffer := .ofList ['x', 'x'] }
    let s := (r.apply ⟨1⟩ 1 {}).2
    let items : Answer := .node ⟨0⟩ 0 2 [.node ⟨1⟩ 0 1 [], .node ⟨1⟩ 1 1 []]
    r.Reachable s ∧ (r.apply ⟨0⟩ 0 s).1 = .ok items ∧
    (Derivation.ofAnswer items).Genuine r ⟨0⟩ 0 := by
  intro g r s items
  have hclosed : g.Closed := by decide
  have hreachable : r.Reachable s := .apply ⟨1⟩ 1 .start
  have hitem : r.Plain ⟨1⟩ 1 (.ok (.node ⟨1⟩ 1 1 [])) := ⟨1, rfl⟩
  have hunbiased := r.unbiased_start
  have haside := (Recognizer.apply_plain rfl (hclosed.closedFrom ⟨1⟩) hitem (.start r) hunbiased).2
  have hplain : r.Plain ⟨0⟩ 0 (.ok items) := ⟨4, rfl⟩
  have hitems : (r.apply ⟨0⟩ 0 s).1 = .ok items :=
    (Recognizer.apply_plain rfl (hclosed.closedFrom ⟨0⟩)
    hplain hreachable.disciplined (haside.unbiased hunbiased)).1
  exact ⟨hreachable, hitems, apply_genuine hreachable hitems⟩

end Packrat
