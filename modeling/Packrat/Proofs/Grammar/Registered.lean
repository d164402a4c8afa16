import Mathlib
import Packrat.Grammar.Basic
import Packrat.Proofs.Rules.Filling
import Packrat.Proofs.Rules.Walk
import Packrat.Proofs.Recognition.Termination

/-! Registered rules can be applied.

Whatever was registered before, and however each registration ended, the registered rules
are resolved (`Grammar.Reachable.resolved`): a registration leaves those that are there as they
are, and adds rules only once it has resolved them; analysis changes flags only. So
no application of a registered rule meets a placeholder or a number that belongs to no
rule (`apply_registered`). -/
namespace Packrat

/-- The grammars that registering and analyzing lead to. -/
inductive Grammar.Reachable : Grammar → Prop where
  | new (graph : RuleGraph) : Reachable { graph }
  | register {g : Grammar} (roots : List RuleId) : g.Reachable → (g.register roots).2.Reachable
  | analyze {g g' : Grammar} : g.Reachable → g.analyze = .ok g' → g'.Reachable

theorem mem_appendNew {α : Type} [DecidableEq α] {known found : List α} {a : α} :
    a ∈ appendNew known found ↔ a ∈ known ∨ a ∈ found := by
  rw [appendNew]
  induction found generalizing known with
  | nil => simp
  | cons b rest ih =>
    rw [List.foldl_cons, ih, List.mem_cons]
    by_cases hb : b ∈ known
    · rw [if_pos hb]
      constructor
      · rintro (h | h)
        · exact .inl h
        · exact .inr (.inr h)
      · rintro (h | rfl | h)
        · exact .inl h
        · exact .inl hb
        · exact .inr h
    · rw [if_neg hb, List.mem_append, List.mem_singleton, or_assoc]

namespace RuleGraph

/-- The rules have the same bodies. -/
def SameBodies (g g' : RuleGraph) : Prop :=
  ∀ x, (g'.rule? x).map (·.body) = (g.rule? x).map (·.body)

section
variable {g g' g'' : RuleGraph}

theorem SameBodies.refl (g : RuleGraph) : g.SameBodies g := fun _ => rfl

theorem SameBodies.symm (h : g.SameBodies g') : g'.SameBodies g := fun x => (h x).symm

theorem SameBodies.trans (h : g.SameBodies g') (h' : g'.SameBodies g'') :
    g.SameBodies g'' := fun x =>
  (h' x).trans (h x)

/-- A rule has the body that it has in the other graph. -/
theorem SameBodies.rule? (h : g.SameBodies g') {x : RuleId} {found : Rule}
    (hfound : g.rule? x = some found) :
    ∃ found', g'.rule? x = some found' ∧ found'.body = found.body := by
  have hbody := h x
  rw [hfound] at hbody
  exact Option.map_eq_some_iff.mp hbody

/-- Each rule of a list gets the flags, once or several times over. -/
theorem rule?_addFlags_all (g : RuleGraph) (rules : List RuleId) (flags : RuleFlags) (x : RuleId) :
    (rules.foldl (·.addFlags · flags) g).rule? x =
      if x ∈ rules then (g.rule? x).map fun found => { found with flags := found.flags ∪ flags }
      else g.rule? x := by
  have htwice : ∀ f : RuleFlags, f ∪ flags ∪ flags = f ∪ flags := fun f => by simp [Union.union]
  induction rules generalizing g with
  | nil => rfl
  | cons y rest ih =>
    rw [List.foldl_cons, ih, addFlags, rule?_modify]
    by_cases hxy : x = y
    · subst hxy
      by_cases hx : x ∈ rest <;> simp [hx, Function.comp_def, htwice]
    · simp [hxy]

/-- Flags that are added change nothing else. -/
theorem map_addFlags_all {α : Type} {f : Rule → α}
    (hf : ∀ found flags, f { found with flags } = f found) (g : RuleGraph) (rules : List RuleId)
    (flags : RuleFlags) (x : RuleId) :
    ((rules.foldl (·.addFlags · flags) g).rule? x).map f = (g.rule? x).map f := by
  rw [rule?_addFlags_all]
  split
  · rw [Option.map_map]
    exact congrArg (fun f => (g.rule? x).map f) (funext fun found => hf found _)
  · rfl

theorem addFlags_all_sameBodies (g : RuleGraph) (rules : List RuleId) (flags : RuleFlags) :
    g.SameBodies (rules.foldl (·.addFlags · flags) g) :=
  map_addFlags_all (fun _ _ => rfl) g rules flags

theorem Resolved.sameBodies {P : RuleId → Prop} (h : g.Resolved P) (hsame : g.SameBodies g') :
    g'.Resolved P := by
  intro x hx
  obtain ⟨found, hfound, hplain, hchildren⟩ := h x hx
  obtain ⟨found', hfound', hbody⟩ := hsame.rule? hfound
  rw [← hbody] at hplain hchildren
  exact ⟨found', hfound', hplain, hchildren⟩

end

end RuleGraph

namespace Grammar
variable {g g' : Grammar}

/-! ### Rules that are enrolled -/

/-- The registered rules are listed once, and what is there to look them up says what the list
says. -/
structure Indexed (g : Grammar) : Prop where
  nodup : g.rules.Nodup
  registered : ∀ x, x ∈ g.registered ↔ x ∈ g.rules
  byName : ∀ name, g.byName[name]? = g.rules.find? fun x => g.nameOf x = some name

theorem foldl_enroll (g : Grammar) (found : List RuleId) :
    (found.foldl enroll g).graph = g.graph ∧ (found.foldl enroll g).roots = g.roots ∧
      (found.foldl enroll g).analysis = g.analysis := by
  induction found generalizing g with
  | nil => exact ⟨rfl, rfl, rfl⟩
  | cons x rest ih =>
    obtain ⟨hgraph, hroots, hanalysis⟩ := ih (g.enroll x)
    have hsame : (g.enroll x).graph = g.graph ∧ (g.enroll x).roots = g.roots ∧
        (g.enroll x).analysis = g.analysis := by
      rw [enroll]
      split <;> exact ⟨rfl, rfl, rfl⟩
    exact ⟨hgraph.trans hsame.1, hroots.trans hsame.2.1, hanalysis.trans hsame.2.2⟩

namespace Indexed

/-- Names are all that matters of the graph. -/
theorem congr (h : g.Indexed) (hrules : g'.rules = g.rules)
    (hregistered : g'.registered = g.registered) (hbyName : g'.byName = g.byName)
    (hnames : ∀ x, g'.nameOf x = g.nameOf x) : g'.Indexed := by
  refine ⟨hrules ▸ h.nodup, fun x => ?_, fun name => ?_⟩
  · rw [hregistered, hrules, h.registered]
  · simp only [hbyName, hrules, hnames, h.byName]

theorem enroll (h : g.Indexed) (x : RuleId) :
    (g.enroll x).Indexed ∧ (g.enroll x).rules = if x ∈ g.rules then g.rules else g.rules ++
    [x] := by
  have hcontains : g.registered.contains x = true ↔ x ∈ g.rules :=
    Std.HashSet.mem_iff_contains.symm.trans (h.registered x)
  rw [Grammar.enroll]
  by_cases hx : x ∈ g.rules
  · rw [if_pos (hcontains.mpr hx), if_pos hx]
    exact ⟨h, rfl⟩
  rw [if_neg fun hin => hx (hcontains.mp hin)]
  refine ⟨⟨?_, fun y => ?_, fun name => ?_⟩, (if_neg hx).symm⟩
  · exact List.nodup_append.mpr ⟨h.nodup, by simp, fun y hy z hz hyz => by simp_all⟩
  · simp only [Std.HashSet.mem_insert, beq_iff_eq, List.mem_append, List.mem_singleton,
      h.registered]
    rw [or_comm, eq_comm]
  · -- The new rule comes last, so it is found only where no other one has the name.
    have hlast : ∀ (g' : Grammar), (∀ y, g'.nameOf y = g.nameOf y) →
        (g.rules ++ [x]).find? (fun y => g'.nameOf y = some name) =
          g.byName[name]?.or (if g.nameOf x = some name then some x else none) := by
      intro g' hname
      simp only [hname, List.find?_append, h.byName, List.find?_singleton, decide_eq_true_eq]
    refine Eq.trans ?_ (hlast _ fun _ => rfl).symm
    cases hname : g.nameOf x with
    | none => simp
    | some name' =>
      dsimp only
      by_cases hold : g.byName.contains name' = true
      · rw [if_pos hold]
        obtain ⟨y, hy⟩ : ∃ y, g.byName[name']? = some y :=
          ⟨_, Std.HashMap.getElem?_eq_some_getElem hold⟩
        by_cases hsame : name' = name
        · subst hsame
          rw [hy]
          rfl
        · simp [hsame]
      · rw [if_neg hold, Std.HashMap.getElem?_insert]
        by_cases hsame : name' = name
        · subst hsame
          have hnone : g.byName[name']? = none := Std.HashMap.getElem?_eq_none (by simpa using hold)
          simp [hnone]
        · simp [hsame]

theorem foldl_enroll (h : g.Indexed) (found : List RuleId) :
    (found.foldl Grammar.enroll g).Indexed ∧ (found.foldl Grammar.enroll g).rules =
      appendNew g.rules found := by
  induction found generalizing g with
  | nil => exact ⟨h, rfl⟩
  | cons x rest ih =>
    obtain ⟨hfirst, hrules⟩ := h.enroll x
    obtain ⟨hrest, hrules'⟩ := ih hfirst
    refine ⟨hrest, ?_⟩
    rw [List.foldl_cons, hrules', hrules]
    rfl

end Indexed

/-! ### What registering and analyzing keep -/

/-- The ways in which registering ends. -/
inductive Registers (g : Grammar) (roots : List RuleId) :
    Except GrammarError (List RuleId) → Grammar → Prop where
  | finalized : g.isFinalized = true → g.Registers roots (.error .finalized) g
  | unknownRule {rule : RuleId} : ¬ g.isFinalized = true → rule ∈ roots →
      g.graph.contains rule = false →
    g.Registers roots (.error (.unknownRule rule)) g
  /-- Some rules have been filled in by then. -/
  | unresolved {e : RuleError} {graph : RuleGraph} : ¬ g.isFinalized = true →
      (∀ x ∈ roots, g.graph.contains x = true) →
    g.graph.resolve roots = (.error e, graph) → g.Registers roots (.error (.unresolved e))
      { g with graph }
  | registered {targets found : List RuleId} {graph : RuleGraph} : ¬ g.isFinalized = true →
    g.graph.resolve roots = (.ok targets, graph) → graph.reachable targets = .ok found →
    graph.Resolved (· ∈ found) → (∀ x ∈ targets, x ∈ found) →
    g.Registers roots (.ok targets)
    (found.foldl enroll { g with graph, roots := appendNew g.roots targets })

theorem register_registers {roots : List RuleId} {o : Except GrammarError (List RuleId)}
    (h : g.register roots = (o, g')) : g.Registers roots o g' := by
  rw [register] at h
  by_cases hfinal : g.isFinalized = true
  · rw [if_pos hfinal] at h
    cases h
    exact .finalized hfinal
  rw [if_neg hfinal] at h
  cases hunknown : roots.find? (!g.graph.contains ·) with
  | some rule =>
    rw [hunknown] at h
    cases h
    exact .unknownRule hfinal (List.mem_of_find?_eq_some hunknown)
      (by simpa using List.find?_some hunknown)
  | none =>
    rw [hunknown] at h
    cases hresolve : g.graph.resolve roots with
    | mk outcome graph =>
      rw [hresolve] at h
      cases outcome with
      | error e =>
        cases h
        exact .unresolved hfinal (fun x hx => by simpa using List.find?_eq_none.mp hunknown x hx)
          hresolve
      | ok targets =>
        obtain ⟨found, hfound, hresolved, htargets⟩ :=
          (RuleGraph.resolve_resolved hresolve).reachable
          (RuleGraph.resolve_filled hresolve).1.ledThrough
        dsimp only at h
        rw [hfound] at h
        cases h
        exact .registered hfinal hresolve hfound hresolved htargets

/-- Resolving changes no name. -/
theorem Indexed.resolve (h : g.Indexed) {roots : List RuleId} {o : Except RuleError (List RuleId)}
    {graph : RuleGraph} (hresolve : g.graph.resolve roots = (o, graph)) (roots' : List RuleId) :
    Indexed { g with graph, roots := roots' } :=
  h.congr rfl rfl rfl (RuleGraph.resolve_filledFrom hresolve).name_eq

/-- However it ends, a registration leaves what is there to look rules up in step with the list. -/
theorem register_indexed (h : g.Indexed) (roots : List RuleId) : (g.register roots).2.Indexed := by
  cases hout : g.register roots with
  | mk o g' =>
    cases register_registers hout with
    | finalized | unknownRule => exact h
    | unresolved _ _ hresolve => exact h.resolve hresolve g.roots
    | registered _ hresolve => exact ((h.resolve hresolve _).foldl_enroll _).1

/-- However it ends, a registration leaves the registered rules resolved. -/
theorem register_resolved (h : g.graph.Resolved (· ∈ g.rules)) (hindexed : g.Indexed)
    (roots : List RuleId) :
    (g.register roots).2.graph.Resolved (· ∈ (g.register roots).2.rules) := by
  have hkeeps : ∀ o graph, g.graph.resolve roots = (o, graph) →
      graph.Resolved (· ∈ g.rules) := fun o graph hresolve =>
    h.congr fun x hx => RuleGraph.resolve_keeps hresolve h hx
  cases hout : g.register roots with
  | mk o g' =>
    cases register_registers hout with
    | finalized | unknownRule => exact h
    | unresolved _ _ hresolve => exact hkeeps _ _ hresolve
    | @registered targets found graph _ hresolve _ hfound _ =>
      simp only [((hindexed.resolve hresolve _).foldl_enroll found).2, (foldl_enroll _ found).1,
        mem_appendNew]
      exact (hkeeps _ _ hresolve).or hfound

/-- Analysis leaves a closed grammar as it is. It flags the rules of any other one by what it finds,
and closes it. -/
theorem analyze_cases (h : g.analyze = .ok g') : (g.isFinalized = true ∧ g' = g) ∨
    (¬ g.isFinalized = true ∧ ∃ n l graph, g.graph.nullability g.rules = .ok n ∧
      graph = (g.rules.filter n.rules.contains).foldl (·.addFlags · { nullable := true }) g.graph ∧
      graph.leftCorners n.rules g.rules = .ok l ∧
      g' = { g with
        graph := (g.rules.filter l.isLeftRecursive).foldl
          (·.addFlags · { leftRecursive := true }) graph
        analysis := some ⟨n, l⟩ }) := by
  rw [analyze] at h
  by_cases hfinal : g.isFinalized = true
  · rw [if_pos hfinal] at h
    cases h
    exact .inl ⟨hfinal, rfl⟩
  rw [if_neg hfinal] at h
  cases hn : g.graph.nullability g.rules with
  | error e =>
    rw [hn] at h
    cases h
  | ok n =>
    rw [hn] at h
    dsimp only [bind, Except.bind] at h
    cases hl : RuleGraph.leftCorners _ n.rules g.rules with
    | error e =>
      rw [hl] at h
      cases h
    | ok l =>
      rw [hl] at h
      cases h
      exact .inr ⟨hfinal, n, l, _, rfl, rfl, hl, rfl⟩

/-- A grammar that has been analyzed is closed, and has the same rules with the same bodies. -/
theorem analyze_ok (h : g.analyze = .ok g') :
    g'.isFinalized = true ∧ g'.rules = g.rules ∧ g.graph.SameBodies g'.graph := by
  rcases analyze_cases h with ⟨hfinal, rfl⟩ | ⟨_, n, l, graph, _, rfl, _, rfl⟩
  · exact ⟨hfinal, rfl, .refl _⟩
  · exact ⟨rfl, rfl, (RuleGraph.addFlags_all_sameBodies _ _ _).trans
      (RuleGraph.addFlags_all_sameBodies _ _ _)⟩

theorem analyze_indexed (hindexed : g.Indexed) (h : g.analyze = .ok g') : g'.Indexed := by
  rcases analyze_cases h with ⟨_, rfl⟩ | ⟨_, n, l, graph, _, rfl, _, rfl⟩
  · exact hindexed
  · refine hindexed.congr rfl rfl rfl fun x => ?_
    have hname : ∀ (found : Rule) (flags : RuleFlags), Rule.name { found with flags } =
        found.name := fun _ _ => rfl
    exact (RuleGraph.map_addFlags_all hname _ _ _ x).trans
      (RuleGraph.map_addFlags_all hname _ _ _ x)

theorem Reachable.indexed (h : g.Reachable) : g.Indexed := by
  induction h with
  | new graph => exact ⟨List.nodup_nil, fun x => by simp, fun name => by simp⟩
  | register roots _ ih => exact register_indexed ih roots
  | analyze _ hok ih => exact analyze_indexed ih hok

/-- The registered rules are there, none is a placeholder, and they refer only to each other. -/
theorem Reachable.resolved (h : g.Reachable) : g.graph.Resolved (· ∈ g.rules) := by
  induction h with
  | new graph => exact fun _ hx => absurd hx List.not_mem_nil
  | register roots hg ih => exact register_resolved ih hg.indexed roots
  | analyze _ hok ih =>
    obtain ⟨_, hrules, hsame⟩ := analyze_ok hok
    rw [hrules]
    exact ih.sameBodies hsame

end Grammar

/-- After whatever was registered, in whatever way each registration ended, and whatever was
applied, applying a registered rule ends with an answer or an error that is no misuse: it meets no
placeholder, no rule unknown to the grammar and no number that belongs to no rule. -/
theorem apply_registered {g : Grammar} (hg : g.Reachable) {r : Recognizer} (hr : r.graph = g.graph)
    {s : Session} (hs : r.Reachable s) {x : RuleId} (hx : x ∈ g.rules) (pos : Nat) :
    (∃ a, (r.apply x pos s).1 = .ok a) ∨
      ∃ e, (r.apply x pos s).1 = .error (.error e) ∧ e.isMisuse = false := by
  have hresolved : r.graph.Resolved (· ∈ g.rules) := hr ▸ hg.resolved
  obtain ⟨a, s', hrun, _⟩ | ⟨e, s', hrun, hpermitted, _⟩ :=
    (r.apply_upholds x pos s hs.disciplined).cases
  · exact .inl ⟨a, by rw [hrun]⟩
  · have hcontains := hresolved.contains hx
    have hclosed := hresolved.closedFrom hx
    cases e with
    | error e =>
      exact .inr
        ⟨e, by rw [hrun], hpermitted.plain hcontains hclosed (hresolved.plainFrom hx) e rfl⟩
    | dangling i => exact absurd rfl (hpermitted.closed hcontains hclosed i)
    | exhausted => exact absurd rfl hpermitted.bounded

set_option maxRecDepth 20000 in
/-- A registration fails at a placeholder without a target after it has filled in the place of
another one; the next one succeeds. -/
theorem apply_registered_after_failure :
    let graph : RuleGraph := ⟨#[⟨"x", .literal "x", {}⟩, ⟨"x", .reference (some ⟨0⟩), {}⟩,
      ⟨"all", .sequence [⟨1⟩, ⟨2⟩], {}⟩, ⟨"<forward>", .reference none, {}⟩,
      ⟨"bad", .sequence [⟨1⟩, ⟨3⟩], {}⟩]⟩
    let g₁ : Grammar := (Grammar.register { graph } [⟨4⟩]).2
    let g : Grammar := (g₁.register [⟨2⟩]).2
    let r : Recognizer := { graph := g.graph, buffer := .ofString "xx" }
    let s := (r.apply ⟨0⟩ 1 {}).2
    (Grammar.register { graph } [⟨4⟩]).1 = .error (.unresolved (.unboundReference ⟨3⟩)) ∧
      g.Reachable ∧ r.Reachable s ∧ ⟨2⟩ ∈ g.rules ∧
      ((∃ a, (r.apply ⟨2⟩ 0 s).1 = .ok a) ∨
        ∃ e, (r.apply ⟨2⟩ 0 s).1 = .error (.error e) ∧ e.isMisuse = false) := by
  intro graph g₁ g r s
  have hg : g.Reachable := .register [⟨2⟩] (.register [⟨4⟩] (.new graph))
  have hs : r.Reachable s := .apply ⟨0⟩ 1 .start
  have hx : ⟨2⟩ ∈ g.rules := by
    have hrules : ((Grammar.register { graph } [⟨4⟩]).2.register [⟨2⟩]).2.rules = [⟨2⟩, ⟨0⟩] := by
      cbv
    exact hrules ▸ List.mem_cons_self ..
  have hfails : (Grammar.register { graph } [⟨4⟩]).1 = .error
      (.unresolved (.unboundReference ⟨3⟩)) := by cbv
  exact ⟨hfails, hg, hs, hx, apply_registered hg rfl hs hx 0⟩

end Packrat
