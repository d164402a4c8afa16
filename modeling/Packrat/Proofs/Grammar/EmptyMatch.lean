import Packrat.Proofs.Grammar.Analysis
import Packrat.Proofs.Recognition.Genuine

/-! Matches of the empty text.

The analysis leaves the end of the buffer out, although it matches without consuming anything.
It leaves out nothing else: a registered rule that matches the empty text is flagged
nullable, or its derivation has a match of the end of the buffer in it
(`nullable_of_empty_match`). The proof is by induction on what the match is made of. Each part
of a match of no bytes is itself a match of no bytes at the same offset
(`Contiguous.empty`), so if no part is a match of the end, all of them are of rules that are
found, and then the rule is found as well. -/
namespace Packrat

/-- Steps that come to no bytes have none each, and all begin where the first one does. -/
theorem Contiguous.empty {start stop : Nat} {steps : List Step} (h : Contiguous start steps stop)
    (hsum : (steps.map (·.length)).sum = 0) : ∀ s ∈ steps, s.start = start ∧ s.length = 0 := by
  induction steps generalizing start with
  | nil => exact nofun
  | cons s rest ih =>
    rw [List.map_cons, List.sum_cons] at hsum
    have hlength : s.length = 0 := by omega
    have hstop : s.stop = start := by rw [Step.stop, h.1, hlength, Nat.add_zero]
    intro t ht
    rcases List.mem_cons.mp ht with rfl | ht
    · exact ⟨h.1, hlength⟩
    · exact ih (hstop ▸ h.2) (by omega) t ht

theorem Answer.Within.trans {a b c : Answer} (hab : a.Within b)
    (hbc : b.Within c) : a.Within c := by
  induction hbc with
  | refl => exact hab
  | child _ hc ih => exact ih.child hc

/-- A registered rule that matches the end of the buffer. -/
def Grammar.MatchesEnd (g : Grammar) (x : RuleId) : Prop :=
  x ∈ g.rules ∧ ∃ found, g.graph.rule? x = some found ∧ found.body = .endOfInput

/-- A match of the end of the buffer is part of the answer, or is the answer itself. -/
def Answer.MeetsEnd (g : Grammar) (a : Answer) : Prop := ∃ e, a.Within e ∧ g.MatchesEnd e.rule

/-- The node of a match of the end of the buffer is the root or below it. -/
def Derivation.MeetsEnd (g : Grammar) (d : Derivation) : Prop :=
  ∃ id s, Relation.ReflTransGen (fun p c => c ∈ d.forest.children p) d.root id ∧ d.step? id = some s ∧
    g.MatchesEnd s.rule

variable {r : Recognizer} {g : Grammar} {a b : Answer}

theorem Answer.MeetsEnd.parent {c : Answer} (h : c.MeetsEnd g)
    (hc : c ∈ a.children) : a.MeetsEnd g := by
  obtain ⟨e, hwithin, hend⟩ := h
  exact ⟨e, (Within.child .refl hc).trans hwithin, hend⟩

/-- What an answer is made of has a node below the root. -/
theorem Derivation.Shows.node_of_within {d : Derivation} {label : NodeId → Answer}
    (h : d.Shows a label) (hb : a.Within b) :
    ∃ id n, Relation.ReflTransGen (fun p c => c ∈ d.forest.children p) d.root id ∧
      d.forest.node? id = some n ∧ label id = b := by
  induction hb with
  | refl =>
    obtain ⟨hroot, n, hn⟩ := h.root
    exact ⟨d.root, n, .refl, hn, hroot⟩
  | child _ hc ih =>
    obtain ⟨id, n, hpath, hn, hlabel⟩ := ih
    obtain ⟨_, _, hchildren, hmade⟩ := h.node id n hn
    rw [hlabel] at hchildren
    obtain ⟨child, hchild, hlabel⟩ := List.mem_map.mp (hchildren ▸ hc)
    refine ⟨child, _, hpath.tail ?_, Array.getElem?_eq_getElem (hmade child hchild), hlabel⟩
    rw [Forest.children, hn]
    exact hchild

theorem Answer.MeetsEnd.derivation (h : a.MeetsEnd g) : (Derivation.ofAnswer a).MeetsEnd g := by
  obtain ⟨e, hwithin, hend⟩ := h
  obtain ⟨label, hshows⟩ := Derivation.ofAnswer_shows a
  obtain ⟨id, n, hpath, hn, hlabel⟩ := hshows.node_of_within hwithin
  have hvalue := (hshows.node id n hn).1
  refine ⟨id, e.step, hpath, ?_, hend⟩
  rw [Derivation.step?, hn, Option.map_some, hvalue, hlabel]

/-- The parts of a match of no bytes: each begins where it does and has no bytes, and if their rules
match the empty text, so does the body, unless it is that of the end of the buffer, and the match is
there. -/
theorem RuleBody.Justifies.empty {P : RuleId → Prop} {buffer : Buffer} {s : Step}
    {children : List Step} {body : RuleBody} (h : body.Justifies buffer s children)
    (h0 : s.length = 0) :
    (∀ c ∈ children, c.rule ∈ body.children ∧ c.start = s.start ∧ c.length = 0) ∧
      ((∀ c ∈ children, P c.rule) → body.NullableBy P ∨ body = .endOfInput ∧
      s.start = buffer.size) := by
  have hstop : s.stop = s.start := by rw [Step.stop, h0, Nat.add_zero]
  cases body with
  | literal text =>
    obtain ⟨rfl, hslice⟩ := h
    rw [hstop] at hslice
    exact ⟨List.forall_mem_nil _,
      fun _ => .inl (String.toList_eq_nil_iff.mp (Buffer.slice?_self hslice))⟩
  | pattern p => exact absurd h0 (Nat.ne_of_gt h.2.1)
  | sequence rules =>
    obtain ⟨hne, rfl, hcontiguous, hsum⟩ := h
    have hempty := hcontiguous.empty (hsum.trans h0)
    refine ⟨fun c hc => ⟨List.mem_map_of_mem hc, hempty c hc⟩,
      fun hall => .inl ⟨hne, fun y hy => ?_⟩⟩
    obtain ⟨c, hc, rfl⟩ := List.mem_map.mp hy
    exact hall c hc
  | choice rules =>
    obtain ⟨c, rfl, hrule, hstart, hlength⟩ := h
    refine ⟨fun d hd => ?_, fun hall => .inl ⟨c.rule, hrule, hall c (List.mem_singleton_self c)⟩⟩
    obtain rfl := List.mem_singleton.mp hd
    exact ⟨hrule, hstart, hlength.trans h0⟩
  | optional rule =>
    refine ⟨fun d hd => ?_, fun _ => .inl trivial⟩
    rcases h with ⟨rfl, _⟩ | ⟨c, rfl, hrule, hstart, hlength⟩
    · cases hd
    · obtain rfl := List.mem_singleton.mp hd
      exact ⟨hrule ▸ List.mem_singleton_self _, hstart, hlength.trans h0⟩
  | repetition rule =>
    obtain ⟨hitems, hcontiguous, hsum⟩ := h
    have hempty := hcontiguous.empty (hsum.trans h0)
    exact ⟨fun c hc => ⟨(hitems c hc).1 ▸ List.mem_singleton_self _, hempty c hc⟩,
      fun _ => .inl trivial⟩
  | epsilon =>
    obtain ⟨rfl, _⟩ := h
    exact ⟨List.forall_mem_nil _, fun _ => .inl trivial⟩
  | endOfInput =>
    obtain ⟨rfl, _, hend⟩ := h
    exact ⟨List.forall_mem_nil _, fun _ => .inr ⟨rfl, hend⟩⟩
  | reference target => exact h.elim

/-- A match of no bytes of a registered rule is of a rule that is found to match the empty text, or
it is at the end of the buffer and a match of the end is part of it. -/
theorem Answer.Derived.nullable {n : Analysis} (hresolved : g.graph.Resolved (· ∈ g.rules))
    (hn : g.Analyzed n) (hr : r.graph = g.graph) (ha : a.Derived r) (h0 : a.length = 0)
    (hrule : a.rule ∈ g.rules) :
    a.rule ∈ n.nullability.rules ∨ a.start = r.buffer.size ∧ a.MeetsEnd g := by
  induction ha with
  | @intro a hjust _ ih =>
    obtain ⟨found, hfound, hbody⟩ := hjust.body
    obtain ⟨hparts, hnullable⟩ := hbody.empty (P := (· ∈ n.nullability.rules)) h0
    have hpart : ∀ c ∈ a.children, c.start = a.start ∧
        (c.rule ∈ n.nullability.rules ∨ c.start = r.buffer.size ∧ c.MeetsEnd g) := by
      intro c hc
      obtain ⟨hchild, hstart, hlength⟩ := hparts c.step (List.mem_map_of_mem hc)
      exact ⟨hstart, ih c hc hlength (hresolved.refers hrule ⟨found, hr ▸ hfound, hchild⟩)⟩
    by_cases hall : ∀ c ∈ a.children, c.rule ∈ n.nullability.rules
    · rcases hnullable (List.forall_mem_map.mpr hall) with hbody | ⟨hend, hpos⟩
      · exact .inl (hn.nullable a.rule hrule found (hr ▸ hfound) hbody)
      · exact .inr ⟨hpos, a, .refl, hrule, found, hr ▸ hfound, hend⟩
    · push Not at hall
      obtain ⟨c, hc, hnot⟩ := hall
      obtain ⟨hstart, hend⟩ := hpart c hc
      obtain ⟨hpos, hmeets⟩ := hend.resolve_left hnot
      exact .inr ⟨hstart ▸ hpos, hmeets.parent hc⟩

/-- A registered rule of a closed grammar that matches the empty text is flagged nullable, or a node
of the derivation is a match of the end of the buffer, whatever was applied before. -/
theorem nullable_of_empty_match (hg : g.Reachable) (hfinal : g.isFinalized = true)
    (hr : r.graph = g.graph) {s : Session} (hs : r.Reachable s) {x : RuleId} (hx : x ∈ g.rules)
    {pos : Nat} (ha : (r.apply x pos s).1 = .ok a) (hm : a.matched = true) (h0 : a.length = 0) :
    x ∈ g.nullableRules ∨ (Derivation.ofAnswer a).MeetsEnd g := by
  obtain ⟨n, hn⟩ := hg.analyzed hfinal
  have hanswers : r.Answers x pos a := ((r.apply_upholds x pos s hs.disciplined).of_ok ha).1
  rcases (hanswers.derived hm).nullable hg.resolved hn hr h0 (hanswers.rule_eq ▸ hx) with
    hfound | ⟨_, hmeets⟩
  · exact .inl (hn.flagged_nullable x hx (hanswers.rule_eq ▸ hfound))
  · exact .inr hmeets.derivation

set_option maxRecDepth 20000 in
/-- A sequence that is not flagged, with the end of the buffer in it. -/
theorem nullable_of_empty_match_at_end :
    let graph : RuleGraph :=
  ⟨#[⟨"line", .sequence [⟨1⟩, ⟨2⟩], {}⟩, ⟨"x?", .optional ⟨3⟩, { nullable := true }⟩,
      ⟨"end", .endOfInput, {}⟩, ⟨"x", .literal "x", {}⟩]⟩
    let r : Recognizer := { graph, buffer := .ofString "x" }
    let s := (r.apply ⟨0⟩ 0 {}).2
    let a : Answer := .node ⟨0⟩ 1 0 [.node ⟨1⟩ 1 0 [], .node ⟨2⟩ 1 0 []]
    ∃ g : Grammar, (Grammar.register { graph } [⟨0⟩]).2.analyze = .ok g ∧ g.Reachable ∧
      g.isFinalized = true ∧
      r.graph = g.graph ∧ r.Reachable s ∧ ⟨0⟩ ∈ g.rules ∧ (r.apply ⟨0⟩ 1 s).1 = .ok a ∧
      a.matched = true ∧
      a.length = 0 ∧ (⟨0⟩ ∈ g.nullableRules ∨ (Derivation.ofAnswer a).MeetsEnd g) := by
  intro graph r s a
  have hgraph : (Grammar.register { graph } [⟨0⟩]).2.analyze.map (·.graph) = .ok graph := by
    simp only [Grammar.analyze, RuleGraph.nullability, RuleGraph.leftCorners, RuleGraph.cornersOf,
      hashSet_ofList_eq_foldl]
    cbv
  have hrules : (Grammar.register { graph } [⟨0⟩]).2.rules = [⟨0⟩, ⟨1⟩, ⟨3⟩, ⟨2⟩] := by cbv
  cases hg : (Grammar.register { graph } [⟨0⟩]).2.analyze with
  | error e => rw [hg] at hgraph; cases hgraph
  | ok g =>
    rw [hg] at hgraph
    obtain ⟨hfinal, hsame, _⟩ := Grammar.analyze_ok hg
    have hreachable : g.Reachable := .analyze (.register [⟨0⟩] (.new graph)) hg
    have hr : r.graph = g.graph := (Except.ok.inj hgraph).symm
    have hs : r.Reachable s := .apply ⟨0⟩ 0 .start
    have hx : ⟨0⟩ ∈ g.rules := by
      rw [hsame, hrules]
      exact List.mem_cons_self ..
    have ha : (r.apply ⟨0⟩ 1 (r.apply ⟨0⟩ 0 {}).2).1 = .ok a := by cbv
    exact ⟨g, rfl, hreachable, hfinal, hr, hs, hx, ha, rfl, rfl,
      nullable_of_empty_match hreachable hfinal hr hs hx ha rfl rfl⟩

end Packrat
