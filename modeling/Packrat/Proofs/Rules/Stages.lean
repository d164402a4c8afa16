import Packrat.Proofs.Rules.Resolution

/-! Resolving in stages.

What placeholders stand for is the same before a place is filled and after, so a graph that has been
filled in part leads from the same roots to the same rules (`FilledFrom.ledThrough`). A later
resolving therefore leaves the rules of the earlier ones as they are, and does to all others what it
would have done to them in the graph at the beginning. So after any number of them the graph is
filled in exactly what all their roots together lead to (`FullyFilled.resolve`), and which rules
these are determines it (`FullyFilled.unique`). -/
namespace Packrat.RuleGraph

/-- All that the roots lead to is filled, and nothing else. -/
structure FullyFilled (g : RuleGraph) (roots : List RuleId) (g' : RuleGraph) : Prop where
  size : g'.size = g.size
  other : ∀ x, ¬ g.LedThrough roots x → g'.rule? x = g.rule? x
  filled : ∀ x, g.LedThrough roots x → ∃ found children, g.rule? x = some found ∧
    g.Followed found.body.children children ∧
    g'.rule? x = some { found with body := found.body.withChildren children }

variable {g g' g'' : RuleGraph} {P : RuleId → Prop} {x y : RuleId}
  {roots roots' targets : List RuleId}

/-! ### What roots lead to -/

theorem ledThrough_append : g.LedThrough (roots ++ roots') x ↔ g.LedThrough roots x ∨
    g.LedThrough roots' x := by
  constructor
  · rintro ⟨root, hroot, hled⟩
    exact (List.mem_append.mp hroot).imp (fun hroot => ⟨root, hroot, hled⟩) fun hroot =>
      ⟨root, hroot, hled⟩
  · rintro (⟨root, hroot, hled⟩ | ⟨root, hroot, hled⟩)
    · exact ⟨root, List.mem_append_left _ hroot, hled⟩
    · exact ⟨root, List.mem_append_right _ hroot, hled⟩

theorem ledThrough_congr (hsame : ∀ x, x ∈ roots ↔ x ∈ roots') :
    g.LedThrough roots x ↔ g.LedThrough roots' x :=
  exists_congr fun root => and_congr_left' (hsame root)

/-- A rule refers through placeholders to what it did before some places were filled. -/
theorem FilledFrom.refersThrough (h : g.FilledFrom P g') : g'.RefersThrough = g.RefersThrough := by
  have hplaces : ∀ {z found}, g.rule? z = some found → ∃ found', g'.rule? z = some found' ∧
      List.Forall₂ (fun c c' => g.follow c' = g.follow c) found.body.children
      found'.body.children := by
    intro z found hfound
    obtain ⟨children, hfilled, _, hrule⟩ := h.rule? hfound
    refine ⟨_, hrule, ?_⟩
    rw [RuleBody.children_withChildren (List.Forall₂.length_eq hfilled).symm]
    exact hfilled.follow_eq
  funext x y
  refine propext ⟨fun ⟨c', ⟨found', hfound', hc'⟩, hfollow⟩ => ?_,
    fun ⟨c, ⟨found, hfound, hc⟩, hfollow⟩ => ?_⟩
  · have hx : g.contains x = true := by
      rw [contains, ← h.size]
      exact contains_of_rule? hfound'
    obtain ⟨found, hfound⟩ := rule?_of_contains hx
    obtain ⟨filled, hrule, hsame⟩ := hplaces hfound
    cases hfound'.symm.trans hrule
    obtain ⟨c, hc, heq⟩ := exists_related_of_mem hsame.flip hc'
    exact ⟨c, ⟨found, hfound, hc⟩, by rw [← heq, ← h.follow_eq, hfollow]⟩
  · obtain ⟨found', hfound', hsame⟩ := hplaces hfound
    obtain ⟨c', hc', heq⟩ := exists_related_of_mem hsame hc
    exact ⟨c', ⟨found', hfound', hc'⟩, by rw [h.follow_eq, heq, hfollow]⟩

theorem FilledFrom.ledThrough (h : g.FilledFrom P g') :
    g'.LedThrough roots x ↔ g.LedThrough roots x := by
  rw [LedThrough, LedThrough, h.refersThrough, h.follow_eq]

/-- Resolved rules refer to the same with placeholders and without. -/
theorem Resolved.refers_of_refersThrough (h : g.Resolved P) (hx : P x) (hxy : g.RefersThrough x y) :
    g.Refers x y := by
  obtain ⟨c, hc, hfollow⟩ := hxy
  cases (h.follow (h.refers hx hc)).symm.trans hfollow
  exact hc

/-! ### One stage after the other -/

namespace FullyFilled

theorem start (g : RuleGraph) : g.FullyFilled [] g :=
  ⟨rfl, fun _ _ => rfl, fun _ ⟨_, hroot, _⟩ => absurd hroot List.not_mem_nil⟩

theorem filledFrom (h : g.FullyFilled roots g') : g.FilledFrom (g.LedThrough roots) g' := by
  refine ⟨h.size, h.other, fun x hx => ?_⟩
  obtain ⟨found, children, hfound, hfollowed, hrule⟩ := h.filled x hx
  obtain ⟨found', hfound', hplain⟩ := hx.plain
  cases hfound.symm.trans hfound'
  exact ⟨found, children, hfound, hplain, hfollowed.filled, hrule⟩

theorem resolved (h : g.FullyFilled roots g') : g'.Resolved (g.LedThrough roots) :=
  resolved_of_filled h.filled

/-- The rules that are filled determine what they are filled with. -/
theorem unique (h : g.FullyFilled roots g') (h' : g.FullyFilled roots' g'')
    (hsame : ∀ x, g.LedThrough roots x ↔ g.LedThrough roots' x) : g' = g'' := by
  refine eq_of_rule? fun x => ?_
  by_cases hx : g.LedThrough roots x
  · obtain ⟨found, children, hfound, hfollowed, hrule⟩ := h.filled x hx
    obtain ⟨found', children', hfound', hfollowed', hrule'⟩ := h'.filled x ((hsame x).mp hx)
    cases hfound.symm.trans hfound'
    have hchildren : children = children' :=
      Except.ok.inj ((mapM_follow.mpr hfollowed).symm.trans (mapM_follow.mpr hfollowed'))
    rw [hrule, hrule', hchildren]
  · rw [h.other x hx, h'.other x fun hx' => hx ((hsame x).mpr hx')]

/-- Resolving fills what its own roots lead to, and leaves what is filled already. -/
theorem resolve (h : g.FullyFilled roots g') (hresolve : g'.resolve roots' = (.ok targets, g'')) :
    g.FullyFilled (roots ++ roots') g'' := by
  have hfrom := resolve_filledFrom hresolve
  have hkept : ∀ x, g.LedThrough roots x → g''.rule? x = g'.rule? x :=
    fun x hx => hfrom.keeps h.resolved hx
  refine ⟨hfrom.size.trans h.size, fun x hx => ?_, fun x hx => ?_⟩
  · rw [ledThrough_append, not_or] at hx
    rw [hfrom.other x (h.filledFrom.ledThrough.not.mpr hx.2), h.other x hx.1]
  · by_cases hold : g.LedThrough roots x
    · rw [hkept x hold]
      exact h.filled x hold
    · have hnew := h.filledFrom.ledThrough.mpr ((ledThrough_append.mp hx).resolve_left hold)
      obtain ⟨found, children, hfound, hfollowed, hrule⟩ := (resolve_filled hresolve).2 x hnew
      rw [h.other x hold] at hfound
      rw [Followed, h.filledFrom.follow_eq] at hfollowed
      exact ⟨found, children, hfound, hfollowed, hrule⟩

end FullyFilled

/-- Where resolving succeeds, what the roots stand for leads to all that the roots lead to through
placeholders. -/
theorem mem_reachable_iff {found : List RuleId} (hresolve : g.resolve roots = (.ok targets, g'))
    (hfound : g'.reachable targets = .ok found) : x ∈ found ↔ g.LedThrough roots x := by
  have hresolved := resolve_resolved hresolve
  have hfollowed := (resolve_filled hresolve).1
  rw [mem_walk hfound]
  constructor
  · rintro ⟨target, htarget, hpath⟩
    exact hresolved.leadsTo (hfollowed.ledThrough target htarget) hpath
  · rintro ⟨root, hroot, target, htarget, hpath⟩
    obtain ⟨target', hmem, htarget'⟩ := hfollowed.of_mem hroot
    cases htarget.symm.trans htarget'
    refine ⟨target, hmem, ?_⟩
    induction hpath with
    | refl => exact .refl
    | @tail y z hpath hlast ih =>
      have hy : g.LedThrough roots y := ⟨root, hroot, target, htarget, hpath⟩
      rw [← (resolve_filledFrom hresolve).refersThrough] at hlast
      exact ih.tail (hresolved.refers_of_refersThrough hy hlast)

end Packrat.RuleGraph
