import Packrat.Proofs.Grammar.FirstCalls
import Packrat.Proofs.Grammar.LeastNullable
import Packrat.Proofs.Grammar.Registry
import Packrat.Proofs.Rules.Stages

/-! The order of registration does not matter.

After registrations that all succeed, a grammar has the rules that all of their roots lead to in the
graph at the beginning, and that graph is filled in there (`Gathers`). Neither depends on the order
of the roots, on repetitions, or on which registration had which of them. Only the order in which
the rules are listed does, and it is the order in which the analysis goes through them. But what is
nullable is the least set that is closed, left corners are what first calls lead to, and flags that
are added twice are there as if they were added once. So the analysis comes to the same as well
(`analyze_same`). -/
namespace Packrat

/-! ### Analyses of the same rules -/

theorem Rule.firstCalls_same {nullable nullable' : Std.HashSet RuleId}
    (hsame : ∀ x, x ∈ nullable' ↔ x ∈ nullable) (found : Rule) :
    found.firstCalls nullable' = found.firstCalls nullable := by
  have hcontains : nullable'.contains = nullable.contains := by
    funext x
    rw [Bool.eq_iff_iff, ← Std.HashSet.mem_iff_contains, ← Std.HashSet.mem_iff_contains, hsame]
  rw [Rule.firstCalls, Rule.firstCalls, hcontains]

namespace RuleGraph
variable {g : RuleGraph} {nullable nullable' : Std.HashSet RuleId} {rules rules' : List RuleId}
  {l l' : LeftCorners}

/-- Flags that are added to the same rules make the same graph. -/
theorem addFlags_all_same (hsame : ∀ x, x ∈ rules' ↔ x ∈ rules) (flags : RuleFlags) :
    rules'.foldl (·.addFlags · flags) g = rules.foldl (·.addFlags · flags) g := by
  refine eq_of_rule? fun x => ?_
  rw [rule?_addFlags_all, rule?_addFlags_all]
  simp only [hsame]

/-- A rule that is not listed starts with nothing. -/
theorem couldStartWith_of_not_mem {x : RuleId} (h : g.leftCorners nullable rules = .ok l)
    (hx : x ∉ rules) (y : RuleId) : l.couldStartWith x y = false := by
  rw [LeftCorners.couldStartWith, (foldlM_corners (leftCorners_eq_ok h)).1 hx,
    Std.HashMap.getElem?_empty, Option.any_none]

theorem leftCorners_same (hrules : ∀ x, x ∈ rules' ↔ x ∈ rules)
    (hnullable : ∀ x, x ∈ nullable' ↔ x ∈ nullable) (h : g.leftCorners nullable rules = .ok l)
    (h' : g.leftCorners nullable' rules' = .ok l') : l'.couldStartWith = l.couldStartWith := by
  have hcalls : g.CallsFirst nullable' = g.CallsFirst nullable :=
    congrArg g.Leads (funext (Rule.firstCalls_same hnullable))
  funext x y
  by_cases hx : x ∈ rules
  · rw [Bool.eq_iff_iff, leftCorners_iff h hx, leftCorners_iff h' ((hrules x).mpr hx), hcalls]
  · rw [couldStartWith_of_not_mem h hx, couldStartWith_of_not_mem h'
      fun hx' => hx ((hrules x).mp hx')]

end RuleGraph

namespace Grammar
variable {g g' a a' : Grammar} {graph : RuleGraph} {roots roots' : List RuleId}

/-- The order of the list does not matter to the analysis. -/
theorem analyze_same (hgraph : g'.graph = g.graph) (hrules : ∀ x, x ∈ g'.rules ↔ x ∈ g.rules)
    (hopen : ¬ g.isFinalized = true) (hopen' : ¬ g'.isFinalized = true) (h : g.analyze = .ok a)
    (h' : g'.analyze = .ok a') : a'.graph = a.graph ∧ a'.couldStartWith = a.couldStartWith := by
  obtain ⟨_, n, l, flagged, hn, rfl, hl, rfl⟩ :=
    (analyze_cases h).resolve_left fun hsame => hopen hsame.1
  obtain ⟨_, n', l', flagged', hn', rfl, hl', rfl⟩ :=
    (analyze_cases h').resolve_left fun hsame => hopen' hsame.1
  rw [hgraph] at hn' hl'
  have hnullable : ∀ x, x ∈ n'.rules ↔ x ∈ n.rules := RuleGraph.nullability_relist hrules hn hn'
  have hflagged : (g'.rules.filter n'.rules.contains).foldl (·.addFlags · { nullable := true })
      g.graph =
      (g.rules.filter n.rules.contains).foldl (·.addFlags · { nullable := true }) g.graph := by
    refine RuleGraph.addFlags_all_same (fun x => ?_) _
    simp only [List.mem_filter, ← Std.HashSet.mem_iff_contains, hrules, hnullable]
  rw [hflagged] at hl'
  have hcorners := RuleGraph.leftCorners_same hrules hnullable hl hl'
  refine ⟨?_, hcorners⟩
  rw [hgraph, hflagged]
  refine RuleGraph.addFlags_all_same (fun x => ?_) _
  simp only [List.mem_filter, LeftCorners.isLeftRecursive, hrules, hcorners]

/-! ### Registrations that all succeed -/

/-- Registers one list of roots after the other; none may fail. -/
def registerAll (g : Grammar) : List (List RuleId) → Except GrammarError Grammar
  | [] => .ok g
  | roots :: rest =>
    match g.register roots with
    | (.error e, _) => .error e
    | (.ok _, g) => g.registerAll rest

/-- The grammar has what some roots lead to in the graph that it began with, and has filled in
that. -/
structure Gathers (graph : RuleGraph) (roots : List RuleId) (g : Grammar) : Prop where
  reachable : g.Reachable
  not_finalized : ¬ g.isFinalized = true
  filled : graph.FullyFilled roots g.graph
  mem_rules : ∀ x, x ∈ g.rules ↔ graph.LedThrough roots x

namespace Gathers

theorem new (graph : RuleGraph) : Gathers graph [] { graph } := by
  refine ⟨.new graph, nofun, .start graph, fun x => ⟨nofun, ?_⟩⟩
  rintro ⟨_, hroot, _⟩
  exact absurd hroot List.not_mem_nil

theorem register {targets : List RuleId} (h : Gathers graph roots g)
    (hok : g.register roots' = (.ok targets, g')) : Gathers graph (roots ++ roots') g' := by
  have hreachable : g'.Reachable := by
    have hnext := h.reachable.register roots'
    rwa [hok] at hnext
  cases register_registers hok with
  | @registered _ found filled hopen hresolve hfound _ _ =>
    obtain ⟨hgraph, _, hanalysis⟩ :=
      foldl_enroll { g with graph := filled, roots := appendNew g.roots targets } found
    have hrules :=
      ((h.reachable.indexed.resolve hresolve (appendNew g.roots targets)).foldl_enroll found).2
    refine ⟨hreachable, ?_, ?_, fun x => ?_⟩
    · rwa [isFinalized, hanalysis]
    · rw [hgraph]
      exact h.filled.resolve hresolve
    · rw [hrules, mem_appendNew, RuleGraph.ledThrough_append]
      exact or_congr (h.mem_rules x)
        ((RuleGraph.mem_reachable_iff hresolve hfound).trans h.filled.filledFrom.ledThrough)

theorem registerAll {calls : List (List RuleId)} (h : Gathers graph roots g)
    (hok : g.registerAll calls = .ok g') : Gathers graph (roots ++ calls.flatten) g' := by
  induction calls generalizing g roots with
  | nil =>
    cases hok
    simpa using h
  | cons first rest ih =>
    rw [Grammar.registerAll] at hok
    cases hfirst : g.register first with
    | mk o next =>
      rw [hfirst] at hok
      cases o with
      | error e => cases hok
      | ok targets => simpa using ih (h.register hfirst) hok

end Gathers

/-- Registrations that all succeed and have the same roots among them, in any order, some of them
several times, and however they are divided, make the same graph and register the same rules.
Analysis goes through after each, and makes the same graph with the same flags and the same left
corners. -/
theorem registerAll_same {calls calls' : List (List RuleId)}
    (h : registerAll { graph } calls = .ok g) (h' : registerAll { graph } calls' = .ok g')
    (hroots : ∀ x, x ∈ calls'.flatten ↔ x ∈ calls.flatten) :
    g'.graph = g.graph ∧ g'.rules.Perm g.rules ∧ (∀ x, g'.contains x = g.contains x) ∧
      ∃ a a', g.analyze = .ok a ∧ g'.analyze = .ok a' ∧ a'.graph = a.graph ∧
      a'.couldStartWith = a.couldStartWith := by
  have hg := (Gathers.new graph).registerAll h
  have hg' := (Gathers.new graph).registerAll h'
  have hled : ∀ x, graph.LedThrough calls'.flatten x ↔ graph.LedThrough calls.flatten x := fun x =>
    RuleGraph.ledThrough_congr hroots
  have hgraph : g'.graph = g.graph := hg'.filled.unique hg.filled hled
  have hrules : ∀ x, x ∈ g'.rules ↔ x ∈ g.rules := fun x =>
    (hg'.mem_rules x).trans ((hled x).trans (hg.mem_rules x).symm)
  have hperm : g'.rules.Perm g.rules :=
    (List.perm_ext_iff_of_nodup hg'.reachable.indexed.nodup hg.reachable.indexed.nodup).mpr hrules
  have hcontains : ∀ x, g'.contains x = g.contains x := fun x => by
    rw [Bool.eq_iff_iff, hg'.reachable.consistent.contains_iff,
      hg.reachable.consistent.contains_iff, hrules]
  obtain ⟨a, ha, _⟩ := analyze_total hg.reachable
  obtain ⟨a', ha', _⟩ := analyze_total hg'.reachable
  have hanalysis := analyze_same hgraph hrules hg.not_finalized hg'.not_finalized ha ha'
  exact ⟨hgraph, hperm, hcontains, a, a', ha, ha', hanalysis⟩

set_option maxRecDepth 20000 in
/-- The second rule refers to itself and to the first one through placeholders. One of the
placeholders is a root, and so is what it stands for. -/
theorem registerAll_same_loop :
    let graph : RuleGraph :=
  ⟨#[⟨"x", .optional ⟨4⟩, {}⟩, ⟨"loop", .sequence [⟨2⟩, ⟨3⟩], {}⟩, ⟨"x", .reference (some ⟨0⟩), {}⟩,
      ⟨"loop", .reference (some ⟨1⟩), {}⟩, ⟨"y", .literal "y", {}⟩, ⟨"z", .choice [⟨2⟩, ⟨4⟩], {}⟩]⟩
    let calls : List (List RuleId) := [[⟨5⟩], [⟨3⟩, ⟨4⟩]]
    let calls' : List (List RuleId) := [[⟨4⟩, ⟨3⟩, ⟨4⟩, ⟨5⟩]]
    (∀ x, x ∈ calls'.flatten ↔ x ∈ calls.flatten) ∧ ∃ g g', registerAll { graph } calls = .ok g ∧
      registerAll { graph } calls' = .ok g' ∧ g.rules = [⟨5⟩, ⟨0⟩, ⟨4⟩, ⟨1⟩] ∧
      g'.rules = [⟨4⟩, ⟨1⟩, ⟨0⟩, ⟨5⟩] ∧
      g'.graph = g.graph ∧ ∃ a a', g.analyze = .ok a ∧ g'.analyze = .ok a' ∧ a'.graph = a.graph ∧
        a'.couldStartWith = a.couldStartWith := by
  intro graph calls calls'
  have hroots : ∀ x, x ∈ calls'.flatten ↔ x ∈ calls.flatten := by
    have hsubset : calls'.flatten ⊆ calls.flatten := by decide
    have hsubset' : calls.flatten ⊆ calls'.flatten := by decide
    exact fun x => ⟨@hsubset x, @hsubset' x⟩
  have hrules : (registerAll { graph } calls).map (·.rules) = .ok [⟨5⟩, ⟨0⟩, ⟨4⟩, ⟨1⟩] := by cbv
  have hrules' : (registerAll { graph } calls').map (·.rules) = .ok [⟨4⟩, ⟨1⟩, ⟨0⟩, ⟨5⟩] := by cbv
  cases hg : registerAll { graph } calls with
  | error e => rw [hg] at hrules; cases hrules
  | ok g =>
    cases hg' : registerAll { graph } calls' with
    | error e => rw [hg'] at hrules'; cases hrules'
    | ok g' =>
      rw [hg] at hrules
      rw [hg'] at hrules'
      obtain ⟨hgraph, _, _, hanalysis⟩ := registerAll_same hg hg' hroots
      exact ⟨hroots, g, g', rfl, rfl, Except.ok.inj hrules, Except.ok.inj hrules',
        hgraph, hanalysis⟩

end Grammar

end Packrat
