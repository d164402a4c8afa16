import Packrat.Proofs.Grammar.NullClosure
import Packrat.Proofs.Grammar.Registered

/-! What a closed grammar knows of its rules.

A grammar is closed by one analysis, and nothing changes after that. The analysis looks
at the bodies that the rules have ever after, so what it finds holds of the closed
grammar itself (`Grammar.Reachable.analyzed`): a rule is found to match the empty text if its body
does by the rules that are found, and what is found is flagged. -/
namespace Packrat

namespace RuleGraph
variable {g : RuleGraph} {x : RuleId}

/-- Flags are kept as others are added, those added to listed rules are there, and there are no
more. -/
theorem addFlags_all_hasFlag_iff {flag : RuleFlags → Bool}
    (hflag : ∀ f f', flag (f ∪ f') = (flag f || flag f')) {rules : List RuleId}
    {flags : RuleFlags} : (rules.foldl (·.addFlags · flags) g).HasFlag flag x ↔
      g.HasFlag flag x ∨ (flag flags = true ∧ x ∈ rules ∧ ∃ found, g.rule? x = some found) := by
  rw [HasFlag, rule?_addFlags_all]
  by_cases hx : x ∈ rules
  · rw [if_pos hx]
    constructor
    · rintro ⟨_, hfound, hset⟩
      obtain ⟨found, hthere, rfl⟩ := Option.map_eq_some_iff.mp hfound
      rw [hflag, Bool.or_eq_true] at hset
      exact hset.imp (fun hold => ⟨found, hthere, hold⟩) fun hset => ⟨hset, hx, found, hthere⟩
    · rintro (⟨found, hfound, hold⟩ | ⟨hset, _, found, hfound⟩)
      · exact ⟨_, by rw [hfound]; rfl, by rw [hflag, hold, Bool.true_or]⟩
      · exact ⟨_, by rw [hfound]; rfl, by rw [hflag, hset, Bool.or_true]⟩
  · rw [if_neg hx]
    exact (or_iff_left fun h => hx h.2.1).symm

end RuleGraph

namespace Grammar
variable {g g' : Grammar} {x : RuleId}

theorem mem_flagged {flag : RuleFlags → Bool} (hx : x ∈ g.rules) (h : g.graph.HasFlag flag x) :
    x ∈ g.flagged flag := by
  obtain ⟨found, hfound, hflag⟩ := h
  refine List.mem_filter.mpr ⟨hx, ?_⟩
  rw [hfound]
  exact hflag

/-- What an analysis says of the registered rules. -/
structure Analyzed (g : Grammar) (a : Analysis) : Prop where
  analysis : g.analysis = some a
  /-- A rule is found whose body matches the empty text by the rules that are found. -/
  nullable : ∀ x ∈ g.rules, ∀ found, g.graph.rule? x = some found →
    found.body.NullableBy (· ∈ a.nullability.rules) → x ∈ a.nullability.rules
  corners : ∃ graph : RuleGraph, graph.SameBodies g.graph ∧
    graph.leftCorners a.nullability.rules g.rules = .ok a.leftCorners
  flagged_nullable : ∀ x ∈ g.rules, x ∈ a.nullability.rules → x ∈ g.nullableRules
  flagged_leftRecursive : ∀ x ∈ g.rules, a.leftCorners.isLeftRecursive x = true →
    x ∈ g.leftRecursiveRules

theorem analyze_analyzed (hresolved : g.graph.Resolved (· ∈ g.rules))
    (hopen : ¬ g.isFinalized = true) (h : g.analyze = .ok g') : ∃ a, g'.Analyzed a := by
  obtain ⟨_, n, l, graph, hn, hgraph, hl, rfl⟩ :=
    (analyze_cases h).resolve_left fun hsame => hopen hsame.1
  have hsame : g.graph.SameBodies graph := hgraph ▸ RuleGraph.addFlags_all_sameBodies _ _ _
  have hsame' := RuleGraph.addFlags_all_sameBodies graph (g.rules.filter l.isLeftRecursive)
    { leftRecursive := true }
  refine ⟨⟨n, l⟩, rfl, fun x hx found hfound hbody => ?_, ⟨graph, hsame', hl⟩,
    fun x hx hfound => ?_, fun x hx hrec => ?_⟩
  · obtain ⟨found', hfound', heq⟩ := (hsame.trans hsame').symm.rule? hfound
    exact RuleGraph.nullability_closed hn hx hfound' (heq ▸ hbody.mono fun _ => .inl)
  · refine mem_flagged hx ((RuleGraph.addFlags_all_hasFlag_iff fun _ _ => rfl).mpr (.inl ?_))
    obtain ⟨found, hthere, _⟩ := hresolved x hx
    refine hgraph ▸ (RuleGraph.addFlags_all_hasFlag_iff fun _ _ => rfl).mpr
      (.inr ⟨rfl, ?_, found, hthere⟩)
    exact List.mem_filter.mpr ⟨hx, Std.HashSet.mem_iff_contains.mp hfound⟩
  · refine mem_flagged hx ((RuleGraph.addFlags_all_hasFlag_iff fun _ _ => rfl).mpr
      (.inr ⟨rfl, ?_, ?_⟩))
    · exact List.mem_filter.mpr ⟨hx, hrec⟩
    · obtain ⟨found, hthere, _⟩ := hresolved x hx
      obtain ⟨found', hthere', _⟩ := hsame.rule? hthere
      exact ⟨found', hthere'⟩

theorem register_finalized (hfinal : g.isFinalized = true) (roots : List RuleId) :
    (g.register roots).2 = g := by
  rw [register, if_pos hfinal]

theorem register_open (hopen : ¬ g.isFinalized = true) (roots : List RuleId) :
    ¬ (g.register roots).2.isFinalized = true := by
  cases hout : g.register roots with
  | mk o g' =>
    cases register_registers hout with
    | finalized hfinal => exact absurd hfinal hopen
    | unknownRule | unresolved => exact hopen
    | registered => rwa [isFinalized, (foldl_enroll _ _).2.2]

/-- A closed grammar was analyzed once, as it is. -/
theorem Reachable.analyzed (h : g.Reachable) (hfinal : g.isFinalized = true) :
    ∃ a, g.Analyzed a := by
  induction h with
  | new graph => cases hfinal
  | @register g roots hg ih =>
    by_cases hopen : g.isFinalized = true
    · rw [register_finalized hopen roots]
      exact ih hopen
    · exact absurd hfinal (register_open hopen roots)
  | @analyze g g' hg hok ih =>
    by_cases hopen : g.isFinalized = true
    · rw [Grammar.analyze, if_pos hopen] at hok
      cases hok
      exact ih hopen
    · exact analyze_analyzed hg.resolved hopen hok

end Grammar

end Packrat
