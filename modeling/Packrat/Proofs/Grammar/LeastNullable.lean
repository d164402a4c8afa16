import Packrat.Proofs.Grammar.Totality
import Mathlib.Order.Bounds.Basic

/-! The rules that are found to match the empty text are the least such set.

What is found is closed: it has every listed rule that is flagged, and every listed rule whose body
matches the empty text by what is found and what is flagged (`NullClosed`). In a graph where the
rules go round, larger sets are closed as well, each rule in them for the sake of another. What is
found has no such rules. A pass only adds a rule whose body matches by what is known already, so as
long as all that is known is in a closed set, what it adds is in it too
(`NullClosed.of_nullablePass`).

The least closed set depends on which rules are listed, not on their order, so what is found does
not depend on it either, although the passes go by it and each sees what the ones before it have
added. -/
namespace Packrat.RuleGraph
variable {g : RuleGraph} {known found : Std.HashSet RuleId} {rules rules' : List RuleId}
  {N : Set RuleId}

/-- A set of listed rules with every one that is flagged, or that matches the empty text by the set
and the flags. -/
structure NullClosed (g : RuleGraph) (rules : List RuleId) (N : Set RuleId) : Prop where
  listed : ∀ x ∈ N, x ∈ rules
  flagged : ∀ x ∈ rules, g.HasFlag (·.nullable) x → x ∈ N
  body : ∀ x ∈ rules, ∀ rule, g.rule? x = some rule →
    rule.body.NullableBy (g.CountsNullable (· ∈ N)) → x ∈ N

/-- Which sets are closed depends on which rules are listed only. -/
theorem NullClosed.relist (hsame : ∀ x, x ∈ rules' ↔ x ∈ rules) (h : g.NullClosed rules N) :
    g.NullClosed rules' N where
  listed x hx := (hsame x).mpr (h.listed x hx)
  flagged x hx := h.flagged x ((hsame x).mp hx)
  body x hx := h.body x ((hsame x).mp hx)

/-! ### A closed set has all that the passes add -/

theorem NullClosed.of_nullablePass {pending : List RuleId} (hN : g.NullClosed rules N)
    (hpending : ∀ x ∈ pending, x ∈ rules) (hknown : ∀ x ∈ known, x ∈ N)
    (h : g.nullablePass known pending = .ok found) : ∀ x ∈ found, x ∈ N := by
  induction pending generalizing known with
  | nil =>
    cases h
    exact hknown
  | cons y rest ih =>
    have hrest : ∀ x ∈ rest, x ∈ rules := fun x hx => hpending x (List.mem_cons_of_mem _ hx)
    rcases nullablePass_cons h with ⟨_, h⟩ | ⟨_, ⟨rule, hrule, hbody⟩, h⟩
    · exact ih hrest hknown h
    · have hcounts : ∀ z, g.CountsNullable (· ∈ known) z → g.CountsNullable (· ∈ N) z := fun z =>
        Or.imp_left (hknown z)
      have hy : y ∈ N :=
        hN.body y (hpending y (List.mem_cons_self ..)) rule hrule (hbody.mono hcounts)
      refine ih hrest (fun x hx => ?_) h
      rcases Std.HashSet.mem_insert.mp hx with hyx | hx
      · exact eq_of_beq hyx ▸ hy
      · exact hknown x hx

theorem NullClosed.of_nullablePasses {n : Nat} {result : Nullability} (hN : g.NullClosed rules N)
    (hknown : ∀ x ∈ known, x ∈ N) (h : g.nullablePasses rules known n = .ok result) :
    ∀ x ∈ result.rules, x ∈ N := by
  induction n generalizing known result with
  | zero =>
    cases h
    exact hknown
  | succ n ih =>
    obtain ⟨found, hpass, hlast⟩ := nullablePasses_succ h
    have hfound := hN.of_nullablePass (fun _ hx => hx) hknown hpass
    rcases hlast with ⟨_, heq⟩ | ⟨_, more, hmore, heq⟩
    · exact heq ▸ hfound
    · exact heq ▸ ih hfound hmore

/-! ### The passes keep what they start from -/

theorem nullablePasses_adds {n : Nat} {result : Nullability}
    (h : g.nullablePasses rules known n = .ok result) :
    (∀ x ∈ known, x ∈ result.rules) ∧ ∀ x ∈ result.rules, x ∈ known ∨ x ∈ rules := by
  induction n generalizing known result with
  | zero =>
    cases h
    exact ⟨fun _ hx => hx, fun _ hx => .inl hx⟩
  | succ n ih =>
    obtain ⟨found, hpass, hlast⟩ := nullablePasses_succ h
    obtain ⟨_, hkeeps, hadds⟩ := nullablePass_adds hpass
    rcases hlast with ⟨_, heq⟩ | ⟨_, more, hmore, heq⟩
    · exact heq ▸ ⟨hkeeps, hadds⟩
    · obtain ⟨hkeeps', hadds'⟩ := ih hmore
      rw [heq]
      exact ⟨fun x hx => hkeeps' x (hkeeps x hx), fun x hx => (hadds' x hx).elim (hadds x) .inr⟩

/-- What is found is the least closed set. -/
theorem nullability_isLeast {n : Nullability} (h : g.nullability rules = .ok n) :
    IsLeast {N : Set RuleId | g.NullClosed rules N} {x | x ∈ n.rules} := by
  obtain ⟨flagged, hpasses, hflagged⟩ := nullability_cases h
  obtain ⟨hkeeps, hadds⟩ := nullablePasses_adds hpasses
  refine ⟨⟨fun x hx => ?_, fun x hx hflag => ?_, fun x hx rule hrule hbody => ?_⟩, fun N hN => ?_⟩
  · exact (hadds x hx).elim (fun hx => ((hflagged x).mp hx).1) id
  · exact hkeeps x ((hflagged x).mpr ⟨hx, hflag⟩)
  · exact nullability_closed h hx hrule hbody
  · refine hN.of_nullablePasses (fun x hx => ?_) hpasses
    obtain ⟨hx, hflag⟩ := (hflagged x).mp hx
    exact hN.flagged x hx hflag

/-- The order of the list, and how often a rule is in it, do not matter. -/
theorem nullability_relist {n n' : Nullability} (hsame : ∀ x, x ∈ rules' ↔ x ∈ rules)
    (h : g.nullability rules = .ok n) (h' : g.nullability rules' = .ok n') (x : RuleId) :
    x ∈ n'.rules ↔ x ∈ n.rules := by
  have hle := nullability_isLeast h
  have hle' := nullability_isLeast h'
  exact ⟨fun hx => hle'.2 (hle.1.relist hsame) hx,
    fun hx => hle.2 (hle'.1.relist fun x => (hsame x).symm) hx⟩

theorem Present.relist (hsame : ∀ x, x ∈ rules' ↔ x ∈ rules) (h : g.Present rules) :
    g.Present rules' := fun x hx =>
  h x ((hsame x).mp hx)

/-- For any rules of the graph that refer to rules of the graph only: the analysis goes through,
what it finds is the least closed set, and for the same rules in another order, or some of them more
than once, it is the same set. -/
theorem nullability_least (h : g.Present rules) :
    ∃ n, g.nullability rules = .ok n ∧ IsLeast {N : Set RuleId | g.NullClosed rules N}
    {x | x ∈ n.rules} ∧ ∀ rules', (∀ x, x ∈ rules' ↔ x ∈ rules) →
        ∃ n', g.nullability rules' = .ok n' ∧ ∀ x, x ∈ n'.rules ↔ x ∈ n.rules := by
  obtain ⟨n, hn⟩ := nullability_ok h
  refine ⟨n, hn, nullability_isLeast hn, fun rules' hsame => ?_⟩
  obtain ⟨n', hn'⟩ := nullability_ok (h.relist hsame)
  exact ⟨n', hn', nullability_relist hsame hn hn'⟩

/-- The first two rules refer to each other, and to a sequence with a flagged rule that is not
listed. The last one refers to itself only: it is in a closed set, but not in the least one. -/
theorem nullability_least_of_cycles :
    let g : RuleGraph :=
  ⟨#[⟨"a", .choice [⟨1⟩, ⟨5⟩], {}⟩, ⟨"b", .choice [⟨2⟩, ⟨0⟩], {}⟩, ⟨"c", .sequence [⟨3⟩, ⟨4⟩], {}⟩,
      ⟨"f", .literal "x", { nullable := true }⟩, ⟨"d", .optional ⟨5⟩, {}⟩, ⟨"x", .literal "x", {}⟩,
      ⟨"lone", .choice [⟨6⟩], {}⟩]⟩
    let rules : List RuleId := [⟨0⟩, ⟨1⟩, ⟨2⟩, ⟨4⟩, ⟨6⟩]
    let rules' : List RuleId := [⟨6⟩, ⟨4⟩, ⟨0⟩, ⟨2⟩, ⟨4⟩, ⟨1⟩]
    g.Present rules ∧ (∀ x, x ∈ rules' ↔ x ∈ rules) ∧ g.NullClosed rules {x | x ∈ rules} ∧
      ∃ n, g.nullability rules = .ok n ∧ IsLeast {N : Set RuleId | g.NullClosed rules N}
      {x | x ∈ n.rules} ∧ (⟨0⟩ ∈ n.rules ∧ ⟨6⟩ ∉ n.rules) ∧
        ∃ n', g.nullability rules' = .ok n' ∧ ∀ x, x ∈ n'.rules ↔ x ∈ n.rules := by
  intro g rules rules'
  have hpresent : g.Present rules := by
    have hchildren : ∀ x ∈ rules, ∀ found ∈ g.rule? x, ∀ y ∈ found.body.children,
        g.contains y = true := by decide
    intro x hx
    obtain ⟨found, hfound⟩ :=
      rule?_of_contains ((by decide : ∀ x ∈ rules, g.contains x = true) x hx)
    exact ⟨found, hfound, hchildren x hx found hfound⟩
  have hsame : ∀ x, x ∈ rules' ↔ x ∈ rules := by
    have hsubset : rules' ⊆ rules := by decide
    have hsubset' : rules ⊆ rules' := by decide
    exact fun x => ⟨@hsubset x, @hsubset' x⟩
  have hall : g.NullClosed rules {x | x ∈ rules} :=
    ⟨fun _ hx => hx, fun _ hx _ => hx, fun _ hx _ _ _ => hx⟩
  obtain ⟨n, hn, hleast, hrelist⟩ := nullability_least hpresent
  have hin : ⟨0⟩ ∈ n.rules := by
    have h4 : ⟨4⟩ ∈ n.rules := hleast.1.body ⟨4⟩ (by decide) _ rfl trivial
    have h2 : ⟨2⟩ ∈ n.rules := by
      refine hleast.1.body ⟨2⟩ (by decide) _ rfl ⟨nofun, fun y hy => ?_⟩
      rcases List.mem_pair.mp hy with rfl | rfl
      · exact .inr ⟨_, rfl, rfl⟩
      · exact .inl h4
    have h1 : ⟨1⟩ ∈ n.rules := hleast.1.body ⟨1⟩ (by decide) _ rfl ⟨⟨2⟩, by decide, .inl h2⟩
    exact hleast.1.body ⟨0⟩ (by decide) _ rfl ⟨⟨1⟩, by decide, .inl h1⟩
  have hout : ⟨6⟩ ∉ n.rules := by
    have hunflagged : ∀ x ∈ rules, ∀ found ∈ g.rule? x, found.flags.nullable = false := by decide
    have hnone : ∀ x ∈ rules, ¬ g.HasFlag (·.nullable) x := fun x hx ⟨found, hfound, hflag⟩ => by
      cases (hunflagged x hx found hfound).symm.trans hflag
    have hsmall : g.NullClosed rules {x | x ∈ rules ∧ x ≠ ⟨6⟩} := by
      refine ⟨fun x hx => hx.1, fun x hx hflag => absurd hflag (hnone x hx),
        fun x hx rule hrule hbody => ⟨hx, ?_⟩⟩
      rintro rfl
      cases hrule
      obtain ⟨y, hy, hcounts⟩ := hbody
      obtain rfl := List.mem_singleton.mp hy
      exact hcounts.elim (fun hmem => hmem.2 rfl) (hnone ⟨6⟩ (by decide))
    exact fun h => (hleast.2 hsmall h).2 rfl
  exact ⟨hpresent, hsame, hall, n, hn, hleast, ⟨hin, hout⟩, hrelist rules' hsame⟩

end Packrat.RuleGraph
