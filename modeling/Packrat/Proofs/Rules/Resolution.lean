import Packrat.Proofs.Rules.Bindings
import Packrat.Proofs.Rules.Filling
import Packrat.Proofs.Rules.Walk

/-! Resolving is complete, keeps what rules mean, and does all its work at once.

It succeeds exactly if the roots and all references that they lead to through placeholders stand
for something. Then nothing that the roots lead to refers to a placeholder any more, and resolving
again, from these roots or from what they stand for, changes nothing (`Completed`). And however it
ends, all that it changes is what is in some places of rules that the roots lead to, and each
place stands for what it stood for before (`Preserved`). -/
namespace Packrat.RuleGraph

/-- What resolving comes to where it succeeds. -/
structure Completed (g : RuleGraph) (roots targets : List RuleId) (g' : RuleGraph) : Prop where
  followed : g.Followed roots targets
  /-- Each rule that the roots lead to refers to what it referred to before, through placeholders or
  not. -/
  filled : ∀ x, g.LedThrough roots x → ∃ found children, g.rule? x = some found ∧
    g.Followed found.body.children children ∧
    g'.rule? x = some { found with body := found.body.withChildren children }
  plain : g'.hasReference targets = .ok false
  again : g'.resolve roots = (.ok targets, g')
  again_targets : g'.resolve targets = (.ok targets, g')

/-- What resolving keeps, whichever way it ends. -/
structure Preserved (g : RuleGraph) (roots : List RuleId) (g' : RuleGraph) : Prop where
  size : g'.size = g.size
  unreached : ∀ x, ¬ g.LedThrough roots x → g'.rule? x = g.rule? x
  placeholder : ∀ x found, g.rule? x = some found → found.body.isReference = true →
    g'.rule? x = some found
  /-- All is the same but what is in the places of a rule, and each of these stands for the same. -/
  rule : ∀ x found, g.rule? x = some found → ∃ found', g'.rule? x = some found' ∧
    found'.name = found.name ∧
    found'.flags = found.flags ∧ found'.body = found.body.withChildren found'.body.children ∧
    List.Forall₂ (fun c c' => g'.follow c' = g.follow c) found.body.children found'.body.children

variable {g g' : RuleGraph} {P : RuleId → Prop} {x c origin : RuleId} {roots targets : List RuleId}
  {e : RuleError}

theorem eq_of_rule? (h : ∀ x, g'.rule? x = g.rule? x) : g' = g := by
  cases g
  cases g'
  exact congrArg _ (Array.ext_getElem? fun i => h ⟨i⟩)

/-! ### Where all numbers are there -/

/-- Filling puts numbers in place that belong to rules. -/
theorem FilledFrom.closed (h : g.FilledFrom P g') (hg : g.Closed) : g'.Closed := by
  have hcontains : ∀ x, g'.contains x = g.contains x := fun x => by rw [contains, contains, h.size]
  intro found' hfound' c' hc'
  obtain ⟨i, hi⟩ := Array.mem_iff_getElem?.mp (Array.mem_toList_iff.mp hfound')
  have hx : g.contains ⟨i⟩ = true := hcontains ⟨i⟩ ▸ contains_of_rule? hi
  obtain ⟨found, hfound⟩ := rule?_of_contains hx
  obtain ⟨children, hfilled, _, hrule⟩ := h.rule? hfound
  cases hi.symm.trans hrule
  rw [RuleBody.children_withChildren (List.Forall₂.length_eq hfilled).symm] at hc'
  obtain ⟨c, hc, hplace⟩ := hfilled.mem hc'
  rw [hcontains]
  rcases hplace with rfl | hplace
  · exact contains_of_refers hg ⟨found, hfound, hc⟩
  · obtain ⟨target, htarget, _⟩ := followWithin_plain hplace
    exact contains_of_rule? htarget

/-- A number that stands for nothing leads to a placeholder without a target, or round for ever. -/
theorem follow_error (hg : g.Closed) (hx : g.contains x = true) (h : g.follow x = .error e) :
    e = .referenceCycle x ∨ ∃ y, e = .unboundReference y := by
  cases (follow_eq_iff hg hx).mp h with
  | unbound _ => exact .inr ⟨_, rfl⟩
  | endless _ => exact .inl rfl

/-! ### Resolving again -/

/-- Resolving leaves a graph as it is where the roots stand for resolved rules. -/
theorem Resolved.resolve_eq (h : g.Resolved P) (hroots : g.Followed roots targets)
    (htargets : ∀ x ∈ targets, P x) : g.resolve roots = (.ok targets, g) := by
  have hled : ∀ x, g.LedThrough roots x → P x := by
    rintro x ⟨root, hroot, target, htarget, hpath⟩
    induction hpath with
    | refl =>
      obtain ⟨y, hy, hfollow⟩ := hroots.of_mem hroot
      cases htarget.symm.trans hfollow
      exact htargets target hy
    | tail _ hlast ih =>
      obtain ⟨c, hrefers, hfollow⟩ := hlast
      have hc := h.refers ih hrefers
      cases (h.follow hc).symm.trans hfollow
      exact hc
  have hgraph : (g.resolve roots).2 = g := by
    refine eq_of_rule? fun x => ?_
    by_cases hx : g.LedThrough roots x
    · exact resolve_keeps rfl h (hled x hx)
    · exact (resolve_filledFrom rfl).other x hx
  have houtcome : (g.resolve roots).1 = .ok targets := by
    rcases resolve_ends g roots with ⟨targets', _, hok, hfollowed, _⟩ | ⟨e, c, _, hc, hfollow, _⟩
    · rw [hok, Except.ok.inj ((mapM_follow.mpr hfollowed).symm.trans (mapM_follow.mpr hroots))]
    · rcases hc with hc | ⟨x, hx, hxc⟩
      · obtain ⟨y, _, hy⟩ := hroots.of_mem hc
        cases hfollow.symm.trans hy
      · cases hfollow.symm.trans (h.follow (h.refers (hled x hx) hxc))
  exact Prod.ext houtcome hgraph

/-- Resolving succeeds if the roots stand for something, and all references that they lead to. -/
theorem resolve_ok_iff : (∃ targets, (g.resolve roots).1 = .ok targets) ↔
    (∀ x ∈ roots, ∃ y, g.follow x = .ok y) ∧
      ∀ x c, g.LedThrough roots x → g.Refers x c → ∃ y, g.follow c = .ok y := by
  constructor
  · rintro ⟨targets, hok⟩
    have hsucceeds : g.resolve roots = (.ok targets, (g.resolve roots).2) := Prod.ext hok rfl
    obtain ⟨hroots, hfilled⟩ := resolve_filled hsucceeds
    refine ⟨fun x hx => ?_, fun x c hx ⟨found, hfound, hc⟩ => ?_⟩
    · obtain ⟨y, _, hfollow⟩ := hroots.of_mem hx
      exact ⟨y, hfollow⟩
    · obtain ⟨found', children, hfound', hchildren, _⟩ := hfilled x hx
      cases hfound.symm.trans hfound'
      obtain ⟨y, _, hfollow⟩ := hchildren.of_mem hc
      exact ⟨y, hfollow⟩
  · rintro ⟨hroots, hreferences⟩
    rcases resolve_ends g roots with ⟨targets, _, hok, _⟩ | ⟨e, c, _, hc, hfollow, _⟩
    · exact ⟨targets, hok⟩
    · obtain ⟨y, hy⟩ : ∃ y, g.follow c = .ok y := by
        rcases hc with hc | ⟨x, hx, hxc⟩
        · exact hroots c hc
        · exact hreferences x c hx hxc
      cases hfollow.symm.trans hy

theorem resolve_completed (h : g.resolve roots = (.ok targets, g')) :
    g.Completed roots targets g' := by
  obtain ⟨hroots, hfilled⟩ := resolve_filled h
  have hresolved := resolve_resolved h
  have htargets := hroots.ledThrough
  have hfollow : g'.follow = g.follow := (resolve_filledFrom h).follow_eq
  refine ⟨hroots, hfilled, hresolved.hasReference htargets, ?_, ?_⟩
  · refine hresolved.resolve_eq ?_ htargets
    rwa [Followed, hfollow]
  · refine hresolved.resolve_eq ?_ htargets
    exact List.forall₂_same.mpr fun x hx => hresolved.follow (htargets x hx)

theorem FilledFrom.preserved (h : g.FilledFrom (g.LedThrough roots) g') : g.Preserved roots g' := by
  refine ⟨h.size, h.other, fun x found hfound href => ?_, fun x found hfound => ?_⟩
  · obtain ⟨children, _, hsame, hrule⟩ := h.rule? hfound
    rw [hrule, hsame href, RuleBody.withChildren_children]
  · obtain ⟨children, hfilled, _, hrule⟩ := h.rule? hfound
    have hchildren : (found.body.withChildren children).children = children :=
      RuleBody.children_withChildren (List.Forall₂.length_eq hfilled).symm
    refine ⟨_, hrule, rfl, rfl, by rw [hchildren], ?_⟩
    rw [hchildren, h.follow_eq]
    exact hfilled.follow_eq

/-- Resolving fails with what a root, or a reference that the roots lead to, fails with. -/
theorem resolve_error (hg : g.Closed) (hroots : ∀ x ∈ roots, g.contains x = true)
    (h : (g.resolve roots).1 = .error e) :
    ∃ c, (c ∈ roots ∨ ∃ x, g.LedThrough roots x ∧ g.Refers x c) ∧ g.follow c = .error e ∧
      (e = .referenceCycle c ∨ ∃ y, e = .unboundReference y) := by
  rcases resolve_ends g roots with ⟨targets, _, hok, _⟩ | ⟨e', c, herror, hc, hfollow, _⟩
  · rw [hok] at h
    cases h
  · cases herror.symm.trans h
    refine ⟨c, hc, hfollow, follow_error hg ?_ hfollow⟩
    rcases hc with hc | ⟨x, _, hxc⟩
    · exact hroots c hc
    · exact contains_of_refers hg hxc

/-- Resolving rules that are all there succeeds exactly if the roots and all references that they
lead to stand for something, and fails only with what one of them fails with. Where it succeeds it
is complete and can be repeated; in any case it keeps all but what is in some places, and what these
stand for. -/
theorem resolve_exact (hg : g.Closed) (hroots : ∀ x ∈ roots, g.contains x = true) :
    ((∃ targets, (g.resolve roots).1 = .ok targets) ↔ (∀ x ∈ roots, ∃ y, g.follow x = .ok y) ∧
      ∀ x c, g.LedThrough roots x → g.Refers x c → ∃ y, g.follow c = .ok y) ∧
    (∀ targets, (g.resolve roots).1 = .ok targets → g.Completed roots targets (g.resolve roots).2) ∧
    (∀ e, (g.resolve roots).1 = .error e → ∃ c,
      (c ∈ roots ∨ ∃ x, g.LedThrough roots x ∧ g.Refers x c) ∧
      g.follow c = .error e ∧ (e = .referenceCycle c ∨ ∃ y, e = .unboundReference y)) ∧
    g.Preserved roots (g.resolve roots).2 := by
  refine ⟨resolve_ok_iff, fun targets hok => resolve_completed (Prod.ext hok rfl),
    fun e he => resolve_error hg hroots he, (resolve_filledFrom rfl).preserved⟩

/-- Two rules refer to each other through placeholders, one of them through two. A third one that
nothing leads to has a placeholder without a target. -/
theorem resolve_exact_chain :
    let g : RuleGraph := ⟨#[⟨"s", .sequence [⟨2⟩, ⟨4⟩], {}⟩, ⟨"t", .reference (some ⟨4⟩), {}⟩,
      ⟨"t", .reference (some ⟨1⟩), {}⟩, ⟨"s", .reference (some ⟨0⟩), {}⟩,
      ⟨"t", .choice [⟨3⟩, ⟨4⟩], {}⟩, ⟨"u", .optional ⟨6⟩, {}⟩, ⟨"v", .reference none, {}⟩]⟩
    g.Closed ∧ (∀ x ∈ [⟨3⟩], g.contains x = true) ∧ (g.resolve [⟨3⟩]).1 = .ok [⟨0⟩] ∧
      g.Completed [⟨3⟩] [⟨0⟩] (g.resolve [⟨3⟩]).2 ∧ g.Preserved [⟨3⟩] (g.resolve [⟨3⟩]).2 := by
  intro g
  have hg : g.Closed := by decide
  have hroots : ∀ x ∈ [⟨3⟩], g.contains x = true := by decide
  obtain ⟨_, hcompleted, _, hpreserved⟩ := resolve_exact hg hroots
  have hok : (g.resolve [⟨3⟩]).1 = .ok [⟨0⟩] := by cbv
  exact ⟨hg, hroots, hok, hcompleted _ hok, hpreserved⟩

end Packrat.RuleGraph
