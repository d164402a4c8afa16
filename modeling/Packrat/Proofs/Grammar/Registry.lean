import Packrat.Proofs.Grammar.Analysis
import Packrat.Proofs.Grammar.Totality
import Packrat.Proofs.Rules.Resolution

/-! The registry of a grammar, whatever is registered and in whatever order.

What the lists, the set and the names say of the registered rules agrees after any number of
registrations, those that fail among them (`Grammar.Consistent`). Each call keeps what earlier ones
have recorded (`Grammar.Keeps`): the lists grow at the end only, a registered rule refers to the
same rules ever after, and a closed grammar stays as it is. A registration that fails records
nothing. -/
namespace Packrat

theorem prefix_appendNew {α : Type} [DecidableEq α] (known found : List α) :
    known <+: appendNew known found := by
  rw [appendNew]
  induction found generalizing known with
  | nil => exact List.prefix_rfl
  | cons a rest ih =>
    refine List.IsPrefix.trans ?_ (ih _)
    dsimp only
    split
    · exact List.prefix_rfl
    · exact List.prefix_append known [a]

theorem nodup_appendNew {α : Type} [DecidableEq α] {known : List α} (h : known.Nodup)
    (found : List α) : (appendNew known found).Nodup := by
  rw [appendNew]
  induction found generalizing known with
  | nil => exact h
  | cons a rest ih =>
    refine ih ?_
    dsimp only
    by_cases ha : a ∈ known
    · rw [if_pos ha]
      exact h
    · rw [if_neg ha]
      exact List.nodup_append.mpr ⟨h, by simp, fun b hb c hc hbc => ha (by simp_all)⟩

namespace RuleGraph

theorem SameBodies.closed {g g' : RuleGraph} (h : g.SameBodies g') (hg : g.Closed) : g'.Closed := by
  intro found' hfound' y hy
  obtain ⟨i, hi⟩ := Array.mem_iff_getElem?.mp (Array.mem_toList_iff.mp hfound')
  obtain ⟨found, hfound, hbody⟩ := h.symm.rule? (x := ⟨i⟩) hi
  obtain ⟨target, htarget⟩ := rule?_of_contains (contains_of_refers hg ⟨found, hfound, hbody ▸ hy⟩)
  obtain ⟨target', htarget', _⟩ := h.rule? htarget
  exact contains_of_rule? htarget'

end RuleGraph

namespace Grammar
variable {g g' g'' : Grammar} {roots : List RuleId} {e : GrammarError}

/-- One call that registers rules, in whichever way it ends, or analyzes. -/
inductive Step : Grammar → Grammar → Prop where
  | register {g : Grammar} (roots : List RuleId) : Step g (g.register roots).2
  | analyze {g g' : Grammar} : g.analyze = .ok g' → Step g g'

/-- The list of the registered rules, the set of them, their names and the roots agree, and the
rules are resolved. -/
structure Consistent (g : Grammar) : Prop where
  nodup : g.rules.Nodup
  contains_iff : ∀ x, g.contains x = true ↔ x ∈ g.rules
  resolved : ∀ x ∈ g.rules, ∃ found, g.graph.rule? x = some found ∧ found.body.isReference = false ∧
    ∀ y ∈ found.body.children, y ∈ g.rules
  roots_nodup : g.roots.Nodup
  roots_registered : ∀ x ∈ g.roots, x ∈ g.rules
  get?_eq : ∀ name, g.get? name = g.rules.find? fun x => g.nameOf x = some name
  get?_none : ∀ name, g.get? name = none ↔ ∀ x ∈ g.rules, g.nameOf x ≠ some name

/-- What a call keeps of what was recorded before. -/
structure Keeps (g g' : Grammar) : Prop where
  rules : g.rules <+: g'.rules
  roots : g.roots <+: g'.roots
  body : ∀ x ∈ g.rules, (g'.graph.rule? x).map (·.body) = (g.graph.rule? x).map (·.body)
  nameOf : ∀ x, g'.nameOf x = g.nameOf x
  finalized : g.isFinalized = true → g' = g

/-- How a registration fails, and that it has recorded nothing by then. -/
structure Refused (g : Grammar) (roots : List RuleId) (e : GrammarError) (g' : Grammar) : Prop where
  /-- At most the graph is another one. -/
  recorded : g' = { g with graph := g'.graph }
  nameOf : ∀ x, g'.nameOf x = g.nameOf x
  get? : ∀ name, g'.get? name = g.get? name
  cause : (e = .finalized ∧ g.isFinalized = true ∧ g' = g) ∨
    (∃ x ∈ roots, e = .unknownRule x ∧ g.graph.contains x = false ∧ g' = g) ∨
    ∃ x, e = .unresolved (.referenceCycle x) ∨ e = .unresolved (.unboundReference x)

theorem Indexed.consistent (h : g.Indexed) (hresolved : g.graph.Resolved (· ∈ g.rules))
    (hroots : g.roots.Nodup) (hregistered : ∀ x ∈ g.roots, x ∈ g.rules) : g.Consistent := by
  refine ⟨h.nodup, fun x => ?_, hresolved, hroots, hregistered, h.byName, fun name => ?_⟩
  · exact Std.HashSet.mem_iff_contains.symm.trans (h.registered x)
  · simp [get?, h.byName]

/-! ### What one call keeps -/

namespace Keeps

theorem refl (g : Grammar) : g.Keeps g :=
  ⟨List.prefix_rfl, List.prefix_rfl, fun _ _ => rfl, fun _ => rfl, fun _ => rfl⟩

theorem trans (h : g.Keeps g') (h' : g'.Keeps g'') : g.Keeps g'' := by
  refine ⟨h.rules.trans h'.rules, h.roots.trans h'.roots, fun x hx => ?_, fun x => ?_,
    fun hfinal => ?_⟩
  · rw [h'.body x (h.rules.subset hx), h.body x hx]
  · rw [h'.nameOf, h.nameOf]
  · obtain rfl := h.finalized hfinal
    exact h'.finalized hfinal

end Keeps

theorem register_keeps (hg : g.Reachable) (roots : List RuleId) : g.Keeps (g.register roots).2 := by
  have hgraph : ∀ o graph, g.graph.resolve roots = (o, graph) →
      (∀ x, (graph.rule? x).map (·.name) = (g.graph.rule? x).map (·.name)) ∧
      ∀ x ∈ g.rules, (graph.rule? x).map (·.body) = (g.graph.rule? x).map
      (·.body) := fun o graph hresolve =>
    ⟨(RuleGraph.resolve_filledFrom hresolve).name_eq,
      fun x hx => congrArg _ (RuleGraph.resolve_keeps hresolve hg.resolved hx)⟩
  cases hout : g.register roots with
  | mk o g' =>
    cases register_registers hout with
    | finalized | unknownRule => exact .refl g
    | unresolved hopen _ hresolve =>
      obtain ⟨hnames, hbodies⟩ := hgraph _ _ hresolve
      exact ⟨List.prefix_rfl, List.prefix_rfl, hbodies, hnames, fun hfinal => absurd hfinal hopen⟩
    | @registered targets found graph hopen hresolve _ _ _ =>
      obtain ⟨hnames, hbodies⟩ := hgraph _ _ hresolve
      obtain ⟨hgraph, hroots, _⟩ :=
        foldl_enroll { g with graph, roots := appendNew g.roots targets } found
      have hrules :=
        ((hg.indexed.resolve hresolve (appendNew g.roots targets)).foldl_enroll found).2
      refine ⟨?_, ?_, fun x hx => ?_, fun x => ?_, fun hfinal => absurd hfinal hopen⟩
      · exact hrules ▸ prefix_appendNew g.rules found
      · exact hroots ▸ prefix_appendNew g.roots targets
      · rw [hgraph, hbodies x hx]
      · rw [nameOf, hgraph, hnames, nameOf]

theorem analyze_keeps (h : g.analyze = .ok g') : g.Keeps g' := by
  rcases analyze_cases h with ⟨_, rfl⟩ | ⟨hopen, n, l, graph, _, rfl, _, rfl⟩
  · exact .refl g'
  · have hadded : ∀ {α : Type} (f : Rule → α), (∀ found flags, f { found with flags } = f found) →
        ∀ x, _ :=
      fun f hf x => (RuleGraph.map_addFlags_all hf _ (g.rules.filter l.isLeftRecursive)
        { leftRecursive := true } x).trans
        (RuleGraph.map_addFlags_all hf g.graph (g.rules.filter n.rules.contains)
        { nullable := true } x)
    exact ⟨List.prefix_rfl, List.prefix_rfl, fun x _ => hadded (·.body) (fun _ _ => rfl) x,
      hadded (·.name) (fun _ _ => rfl), fun hfinal => absurd hfinal hopen⟩

theorem Step.keeps (hg : g.Reachable) (h : Step g g') : g'.Reachable ∧ g.Keeps g' := by
  cases h with
  | register roots => exact ⟨.register roots hg, register_keeps hg roots⟩
  | analyze hok => exact ⟨.analyze hg hok, analyze_keeps hok⟩

theorem Step.closed (hg : g.graph.Closed) (h : Step g g') : g'.graph.Closed := by
  cases h with
  | register roots =>
    cases hout : g.register roots with
    | mk o g' =>
      cases register_registers hout with
      | finalized | unknownRule => exact hg
      | unresolved _ _ hresolve => exact (RuleGraph.resolve_filledFrom hresolve).closed hg
      | @registered targets found graph _ hresolve =>
        show (found.foldl enroll _).graph.Closed
        rw [(foldl_enroll _ found).1]
        exact (RuleGraph.resolve_filledFrom hresolve).closed hg
  | analyze hok => exact (analyze_ok hok).2.2.closed hg

/-! ### What any number of calls keep -/

theorem keeps_of_run (hg : g.Reachable) (h : Relation.ReflTransGen Step g g') :
    g'.Reachable ∧ g.Keeps g' := by
  induction h with
  | refl => exact ⟨hg, .refl g⟩
  | tail _ hlast ih =>
    obtain ⟨hreachable, hkeeps⟩ := ih
    obtain ⟨hnext, hstep⟩ := hlast.keeps hreachable
    exact ⟨hnext, hkeeps.trans hstep⟩

theorem closed_of_run (hg : g.graph.Closed) (h : Relation.ReflTransGen Step g g') :
    g'.graph.Closed := by
  induction h with
  | refl => exact hg
  | tail _ hlast ih => exact hlast.closed ih

/-- The roots are registered, each once. -/
theorem Reachable.roots_registered (h : g.Reachable) :
    g.roots.Nodup ∧ ∀ x ∈ g.roots, x ∈ g.rules := by
  induction h with
  | new graph => exact ⟨List.nodup_nil, fun _ hx => absurd hx List.not_mem_nil⟩
  | @register g roots hg ih =>
    cases hout : g.register roots with
    | mk o g' =>
      cases register_registers hout with
      | finalized | unknownRule | unresolved => exact ih
      | @registered targets found graph _ hresolve _ _ htargets =>
        rw [(foldl_enroll _ found).2.1, ((hg.indexed.resolve hresolve _).foldl_enroll found).2]
        refine ⟨nodup_appendNew ih.1 targets, fun x hx => mem_appendNew.mpr ?_⟩
        exact (mem_appendNew.mp hx).imp (ih.2 x) (htargets x)
  | @analyze g g' _ hok ih =>
    rcases analyze_cases hok with ⟨_, rfl⟩ | ⟨_, n, l, graph, _, _, _, rfl⟩ <;> exact ih

theorem Reachable.consistent (h : g.Reachable) : g.Consistent :=
  h.indexed.consistent h.resolved h.roots_registered.1 h.roots_registered.2

/-! ### How calls end -/

theorem register_refused (hg : g.graph.Closed) (h : g.register roots = (.error e, g')) :
    g.Refused roots e g' := by
  cases register_registers h with
  | finalized hfinal => exact ⟨rfl, fun _ => rfl, fun _ => rfl, .inl ⟨rfl, hfinal, rfl⟩⟩
  | unknownRule _ hx hunknown =>
    exact ⟨rfl, fun _ => rfl, fun _ => rfl, .inr (.inl ⟨_, hx, rfl, hunknown, rfl⟩)⟩
  | unresolved _ hroots hresolve =>
    refine ⟨rfl, (RuleGraph.resolve_filledFrom hresolve).name_eq, fun _ => rfl, .inr (.inr ?_)⟩
    obtain ⟨c, _, _, rfl | ⟨y, rfl⟩⟩ :=
      RuleGraph.resolve_error hg hroots (congrArg Prod.fst hresolve)
    · exact ⟨c, .inl rfl⟩
    · exact ⟨y, .inr rfl⟩

theorem register_ok (hg : g.Reachable) {targets : List RuleId}
    (h : g.register roots = (.ok targets, g')) :
    ∃ found, g'.graph.reachable targets = .ok found ∧ g'.rules = appendNew g.rules found ∧
      g'.roots = appendNew g.roots targets := by
  cases register_registers h with
  | @registered _ found graph _ hresolve hfound _ _ =>
    obtain ⟨hgraph, hroots, _⟩ :=
      foldl_enroll { g with graph, roots := appendNew g.roots targets } found
    refine ⟨found, ?_, ((hg.indexed.resolve hresolve _).foldl_enroll found).2, hroots⟩
    rw [hgraph]
    exact hfound

theorem analyze_total (hg : g.Reachable) : ∃ g', g.analyze = .ok g' ∧ g'.isFinalized = true := by
  have hresolved := hg.resolved
  have hok : ∃ g', g.analyze = .ok g' := by
    unfold analyze
    split
    · exact ⟨g, rfl⟩
    refine RuleGraph.exists_ok_bind (RuleGraph.nullability_ok (hresolved.present fun _ hx => hx))
      fun n _ => ?_
    refine RuleGraph.exists_ok_bind ?_ fun _ _ => ⟨_, rfl⟩
    exact RuleGraph.leftCorners_ok
      (hresolved.sameBodies (RuleGraph.addFlags_all_sameBodies _ _ _)).encloses fun _ hx => hx
  obtain ⟨g', hg'⟩ := hok
  exact ⟨g', hg', (analyze_ok hg').1⟩

/-- Whatever is registered in a graph whose rules refer to rules of the graph only, in whichever way
each registration ends, and wherever it is analyzed: what the grammar records is consistent, and
later calls keep it. A registration that fails records nothing, one that succeeds adds what its
roots lead to in the order of the walk, analysis always goes through, and nothing changes after
that. -/
theorem registry_consistent {graph : RuleGraph} (hgraph : graph.Closed)
    (h : Relation.ReflTransGen Step { graph } g) :
    g.Consistent ∧ (∀ g', Relation.ReflTransGen Step g g' → g.Keeps g') ∧
    (∀ roots e, (g.register roots).1 = .error e → g.Refused roots e (g.register roots).2) ∧
    (∀ roots targets, (g.register roots).1 = .ok targets → ∃ found,
      (g.register roots).2.graph.reachable targets = .ok found ∧
      (g.register roots).2.rules = appendNew g.rules found ∧
      (g.register roots).2.roots = appendNew g.roots targets) ∧
    (g.isFinalized = true → (∀ roots, g.register roots = (.error .finalized, g)) ∧
      g.analyze = .ok g) ∧
    ∃ g', g.analyze = .ok g' ∧ g'.isFinalized = true := by
  have hg : g.Reachable := (keeps_of_run (.new graph) h).1
  refine ⟨hg.consistent, fun g' hrun => (keeps_of_run hg hrun).2, fun roots e he => ?_,
    fun roots targets hok => ?_, fun hfinal => ⟨fun roots => ?_, ?_⟩, analyze_total hg⟩
  · exact register_refused (closed_of_run hgraph h) (Prod.ext he rfl)
  · exact register_ok hg (Prod.ext hok rfl)
  · rw [register, if_pos hfinal]
  · rw [analyze, if_pos hfinal]
    rfl

set_option maxRecDepth 20000 in
/-- The first registration fails after it has filled in the place of a placeholder, the second one
names a root twice. -/
theorem registry_consistent_pair :
    let graph : RuleGraph := ⟨#[⟨"x", .literal "x", {}⟩, ⟨"x", .reference (some ⟨0⟩), {}⟩,
      ⟨"pair", .sequence [⟨1⟩, ⟨1⟩], {}⟩, ⟨"gap", .reference none, {}⟩,
      ⟨"bad", .choice [⟨1⟩, ⟨3⟩], {}⟩]⟩
    let g₁ : Grammar := (Grammar.register { graph } [⟨4⟩]).2
    let g : Grammar := (g₁.register [⟨2⟩, ⟨1⟩, ⟨2⟩]).2
    graph.Closed ∧ (Grammar.register { graph } [⟨4⟩]).1 = .error
      (.unresolved (.unboundReference ⟨3⟩)) ∧
      Relation.ReflTransGen Step { graph } g ∧ g.rules = [⟨2⟩, ⟨0⟩] ∧ g.roots = [⟨2⟩, ⟨0⟩] ∧
      g.Consistent ∧ ∃ g', g.analyze = .ok g' ∧ g'.isFinalized = true ∧ g.Keeps g' := by
  intro graph g₁ g
  have hgraph : graph.Closed := by decide
  have hrun : Relation.ReflTransGen Step { graph } g :=
    .tail (.single (.register [⟨4⟩])) (.register [⟨2⟩, ⟨1⟩, ⟨2⟩])
  have hfails : (Grammar.register { graph } [⟨4⟩]).1 = .error
      (.unresolved (.unboundReference ⟨3⟩)) := by cbv
  have hrules : ((Grammar.register { graph } [⟨4⟩]).2.register [⟨2⟩, ⟨1⟩, ⟨2⟩]).2.rules =
      [⟨2⟩, ⟨0⟩] := by cbv
  have hroots : ((Grammar.register { graph } [⟨4⟩]).2.register [⟨2⟩, ⟨1⟩, ⟨2⟩]).2.roots =
      [⟨2⟩, ⟨0⟩] := by cbv
  obtain ⟨hconsistent, hkeeps, _, _, _, g', hok, hfinal⟩ := registry_consistent hgraph hrun
  exact ⟨hgraph, hfails, hrun, hrules, hroots, hconsistent, g', hok, hfinal,
    hkeeps g' (.single (.analyze hok))⟩

end Grammar

end Packrat
