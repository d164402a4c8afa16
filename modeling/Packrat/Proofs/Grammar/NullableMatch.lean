import Packrat.Proofs.Grammar.Flags
import Packrat.Proofs.Recognition.Limit
import Packrat.Proofs.Recognition.Spans

/-! Rules that are flagged nullable do not fail.

A body that matches the empty text by rules that do not fail at any boundary does not fail at one
either (`Interpretation.body_matches`): a choice has an alternative that matches if none before it
does, and a sequence goes on at boundaries only, wherever its parts end. So a rule that matches the
empty text, if its plain interpretation comes to an end at all, comes to a match
(`RuleGraph.Empties.matches`), and an application in a new session answers that match. -/
namespace Packrat

namespace Interpretation
variable {α β : Type} {rec : RuleId → Nat → Interpretation Answer} {b : Buffer} {pos n : Nat}
  {rules : List RuleId}

/-- If the first one delivers what the second one asks for. -/
theorem Delivers.bind_of {p : Interpretation α} {f : α → Interpretation β} {P : α → Prop}
    {Q : β → Prop} (hp : Delivers p P) (hf : ∀ a, P a → Delivers (f a) Q) :
    Delivers (p >>= f) Q := by
  intro b hb
  rw [run_bind] at hb
  obtain ⟨o, ho, hb⟩ := Option.bind_eq_some_iff.mp hb
  cases o with
  | ok a => exact hf a (hp a ho) b hb
  | error e => cases hb

/-- From each boundary on, the rule matches if it comes to an answer, and the match ends at a
boundary. -/
def Matches (rec : RuleId → Nat → Interpretation Answer) (b : Buffer) (x : RuleId) : Prop :=
  ∀ pos, Boundary b.text pos →
    Delivers (rec x pos) fun a => a.matched = true ∧ Boundary b.text (pos + a.length)

theorem each_matches (h : ∀ x ∈ rules, Matches rec b x) (hpos : Boundary b.text pos) :
    Delivers (each rec rules pos) (·.isSome = true) := by
  induction rules generalizing pos with
  | nil => exact .pure rfl
  | cons x rest ih =>
    obtain ⟨hx, hrest⟩ := List.forall_mem_cons.mp h
    refine (hx pos hpos).bind_of fun a ⟨hm, hstop⟩ => ?_
    rw [if_pos hm]
    exact (ih hrest hstop).bind_of fun o ho => .pure (by rwa [Option.isSome_map])

/-- One alternative that matches is enough: one before it may match as well, and comes first. -/
theorem first_matches {x : RuleId} (hx : x ∈ rules) (h : Matches rec b x)
    (hpos : Boundary b.text pos) : Delivers (first rec pos rules) (·.isSome = true) := by
  induction rules with
  | nil => cases hx
  | cons y rest ih =>
    rcases List.mem_cons.mp hx with rfl | hx
    · refine (h pos hpos).bind_of fun a ⟨hm, _⟩ => ?_
      rw [if_pos hm]
      exact .pure rfl
    · refine .bind fun a => ?_
      split
      · exact .pure rfl
      · exact ih hx

/-- A body that matches the empty text by rules that match wherever they come to an answer. -/
theorem body_matches {x : RuleId} {body : RuleBody} (h : body.NullableBy (Matches rec b))
    (hpos : Boundary b.text pos) :
    Delivers (Interpretation.body rec b n x pos body) (·.matched = true) := by
  cases body with
  | literal text =>
    obtain ⟨front, rest, htext, hfront⟩ := hpos
    have hrest : b.suffix? pos = some rest := Buffer.suffix?_eq_some_iff.mpr ⟨front, htext, hfront⟩
    subst h
    refine .pure ?_
    rw [hrest]
    rfl
  | sequence rules =>
    obtain ⟨hne, hall⟩ := h
    cases rules with
    | nil => exact absurd rfl hne
    | cons y rest =>
      refine (each_matches hall hpos).bind_of fun o ho => ?_
      obtain ⟨parts, rfl⟩ := Option.isSome_iff_exists.mp ho
      exact .pure rfl
  | choice rules =>
    obtain ⟨y, hy, hmatches⟩ := h
    refine (first_matches hy hmatches hpos).bind_of fun o ho => ?_
    obtain ⟨a, rfl⟩ := Option.isSome_iff_exists.mp ho
    exact .pure rfl
  | optional _ | repetition _ => exact .bind fun _ => .pure rfl
  | epsilon => exact .pure rfl
  | pattern _ | endOfInput | reference _ => exact h.elim

end Interpretation

open Interpretation

namespace Recognizer
variable {r r' : Recognizer} {x : RuleId} {pos : Nat} {a : Answer}

/-- The plain interpretation goes by the bodies of the rules and by the buffer only. -/
theorem interpret_congr (hgraph : r.graph.SameBodies r'.graph) (hbuffer : r'.buffer = r.buffer)
    (n : Nat) : r'.interpret n = r.interpret n := by
  induction n with
  | zero => rfl
  | succ n ih =>
    funext x pos
    have hbody := hgraph x
    rw [interpret, interpret, ih, hbuffer]
    cases hfound : r.graph.rule? x with
    | none =>
      rw [hfound] at hbody
      rw [Option.map_eq_none_iff.mp hbody]
    | some found =>
      obtain ⟨found', hfound', hsame⟩ := hgraph.rule? hfound
      rw [hfound']
      exact congrArg (Interpretation.body (r.interpret n) r.buffer n x pos) hsame

/-- A plain answer is what an application in a new session without a limit comes to. -/
theorem Plain.apply_free (hclosed : r.graph.ClosedFrom x) (h : r.Plain x pos (.ok a)) :
    (apply { r with stepLimit := none } x pos {}).1 = .ok a := by
  obtain ⟨n, hn⟩ := h
  have hsame := @interpret_congr r { r with stepLimit := none } (.refl _) rfl n
  have hunbiased := unbiased_start { r with stepLimit := none }
  exact (apply_plain (r := { r with stepLimit := none }) rfl hclosed ⟨n, hsame ▸ hn⟩
    (.start _) hunbiased).1

/-- A plain answer from a boundary on ends at a boundary. -/
theorem Plain.boundary_stop (hclosed : r.graph.ClosedFrom x) (h : r.Plain x pos (.ok a))
    (hpos : Boundary r.buffer.text pos) : Boundary r.buffer.text (pos + a.length) := by
  have hanswers : Answers { r with stepLimit := none } x pos a :=
    ((apply_upholds { r with stepLimit := none } x pos {} (.start _)).of_ok
    (h.apply_free hclosed)).1
  have hstop := Buffer.boundary_stop (hanswers.tiled.text_eq (hanswers.start_eq ▸ hpos))
  rwa [Answer.stop, hanswers.start_eq] at hstop

/-- A rule that matches the empty text matches from each boundary on, if it comes to an answer. -/
theorem matches_of_empties {P : RuleId → Prop} (hresolved : r.graph.Resolved P)
    (hempties : r.graph.Empties x) (hx : P x) (n : Nat) : Matches (r.interpret n) r.buffer x := by
  refine hempties.rec (P := fun y => P y → ∀ n, Matches (r.interpret n) r.buffer y)
    (fun y found hfound hbody hy n => ?_) hx n
  cases n with
  | zero => exact fun _ _ => nofun
  | succ n =>
    intro pos hpos a ha
    obtain ⟨found', hfound', _, hchildren⟩ := hresolved y hy
    cases hfound.symm.trans hfound'
    have hparts := hbody.withChildren (Q := Matches (r.interpret n) r.buffer)
      (List.forall₂_same.mpr fun z hz hmatches => hmatches (hchildren z hz) n)
    rw [RuleBody.withChildren_children] at hparts
    refine ⟨body_matches (n := n) (x := y) hparts hpos a ?_,
      Plain.boundary_stop (hresolved.closedFrom hy) ⟨n + 1, ha⟩ hpos⟩
    rwa [interpret, hfound] at ha

end Recognizer

/-- What is flagged nullable in a grammar matches the empty text, if flags come from definitions and
analyses only. -/
theorem RuleGraph.empties_of_flagged {graph : RuleGraph} (hgraph : graph.Made) {g : Grammar}
    (hrun : Relation.ReflTransGen Grammar.Step { graph } g) {x : RuleId}
    (hx : x ∈ g.nullableRules) : g.graph.Empties x := by
  have hflag := (List.mem_filter.mp hx).2
  cases hfound : g.graph.rule? x with
  | none => rw [hfound] at hflag; cases hflag
  | some found =>
    rw [hfound] at hflag
    exact (hgraph.run hrun).flagsSound x ⟨found, hfound, hflag⟩

/-- A rule of a closed grammar that is flagged nullable does not fail at a boundary, if flags come
from definitions and analyses only: where its plain interpretation comes to an answer, an
application in a new session answers with a match, unless a limit on steps ends it before. -/
theorem nullable_matches {graph : RuleGraph} (hgraph : graph.Made) {g : Grammar}
    (hrun : Relation.ReflTransGen Grammar.Step { graph } g) {r : Recognizer}
    (hr : r.graph = g.graph) {x : RuleId} (hx : x ∈ g.nullableRules) {pos : Nat}
    (hpos : Boundary r.buffer.text pos) {a : Answer} (hplain : r.Plain x pos (.ok a)) :
    a.matched = true ∧ ((r.apply x pos {}).1 = .ok a ∨
      ∃ limit, r.stepLimit = some limit ∧ (r.apply x pos {}).1 = .error
        (.error (.stepLimit limit))) := by
  have hregistered : x ∈ g.rules := (List.mem_filter.mp hx).1
  have hresolved : r.graph.Resolved (· ∈ g.rules) :=
    hr ▸ (Grammar.keeps_of_run (.new graph) hrun).1.resolved
  have hempties : r.graph.Empties x := hr ▸ RuleGraph.empties_of_flagged hgraph hrun hx
  obtain ⟨n, hn⟩ := hplain
  refine ⟨(Recognizer.matches_of_empties hresolved hempties hregistered n pos hpos a hn).1, ?_⟩
  have hfree := Recognizer.Plain.apply_free (hresolved.closedFrom hregistered) ⟨n, hn⟩
  obtain ⟨rules, buffer, stepLimit, trace⟩ := r
  cases stepLimit with
  | none => exact .inl hfree
  | some limit =>
    have hlimits := Recognizer.apply_limits (r := ⟨rules, buffer, none, trace⟩) rfl limit x pos
    rcases hlimits.cut {} (Nat.zero_le limit) with ⟨hsame, _⟩ | ⟨_, herror, _⟩
    · exact .inl ((congrArg Prod.fst hsame).trans hfree)
    · exact .inr ⟨limit, rfl, herror⟩

set_option maxRecDepth 20000 in
/-- A sequence of a placeholder, bound to a choice, and the empty text. The first alternative of the
choice is not flagged; it matches a character of two bytes, and the sequence goes on after it. -/
theorem nullable_matches_moved :
    let graph : RuleGraph := ⟨#[⟨"either", .reference (some ⟨4⟩), {}⟩, ⟨"ß", .literal "ß", {}⟩,
      ⟨"none", .literal "", { nullable := true }⟩, ⟨"all", .sequence [⟨0⟩, ⟨2⟩], {}⟩,
      ⟨"either", .choice [⟨1⟩, ⟨2⟩], {}⟩]⟩
    let moved : Answer := .node ⟨3⟩ 1 2 [.node ⟨4⟩ 1 2 [.node ⟨1⟩ 1 2 []], .node ⟨2⟩ 3 0 []]
    graph.Made ∧ ∃ g, Relation.ReflTransGen Grammar.Step { graph } g ∧
      (⟨3⟩ ∈ g.nullableRules ∧ ⟨1⟩ ∉ g.nullableRules) ∧
      let r : Recognizer := { graph := g.graph, buffer := .ofList ['a', 'ß'] }
      Boundary r.buffer.text 1 ∧ r.Plain ⟨3⟩ 1 (.ok moved) ∧ moved.matched = true ∧
      (r.apply ⟨3⟩ 1 {}).1 = .ok moved := by
  intro graph moved
  have hgraph : graph.Made := RuleGraph.Made.new
    |>.define "<forward>" (.reference none) rfl
    |>.define "ß" (.literal "ß") rfl
    |>.define "none" (.literal "") rfl
    |>.define "all" (.sequence [⟨0⟩, ⟨2⟩]) rfl
    |>.define "either" (.choice [⟨1⟩, ⟨2⟩]) rfl
    |>.bind ⟨0⟩ ⟨4⟩ rfl
  let registered : RuleGraph := ⟨#[⟨"either", .reference (some ⟨4⟩), {}⟩, ⟨"ß", .literal "ß", {}⟩,
      ⟨"none", .literal "", { nullable := true }⟩, ⟨"all", .sequence [⟨4⟩, ⟨2⟩], {}⟩,
      ⟨"either", .choice [⟨1⟩, ⟨2⟩], {}⟩]⟩
  have hregistered : (Grammar.register { graph } [⟨3⟩]).2.graph = registered := by cbv
  have hrules : (Grammar.register { graph } [⟨3⟩]).2.rules = [⟨3⟩, ⟨4⟩, ⟨1⟩, ⟨2⟩] := by cbv
  have hreachable : (Grammar.register { graph } [⟨3⟩]).2.Reachable := .register [⟨3⟩] (.new graph)
  obtain ⟨g, hok, hfinal⟩ := Grammar.analyze_total hreachable
  have hrun : Relation.ReflTransGen Grammar.Step { graph } g :=
    .tail (.single (.register [⟨3⟩])) (.analyze hok)
  obtain ⟨_, hsame, hbodies⟩ := Grammar.analyze_ok hok
  rw [hrules] at hsame
  rw [hregistered] at hbodies
  obtain ⟨n, hn⟩ := (hreachable.analyze hok).analyzed hfinal
  have hfound : ∀ x ∈ g.rules, ∀ found, registered.rule? x = some found →
      found.body.NullableBy (· ∈ n.nullability.rules) → x ∈ n.nullability.rules := by
    intro x hx found hfound hbody
    obtain ⟨found', hfound', heq⟩ := hbodies.rule? hfound
    exact hn.nullable x hx found' hfound' (heq ▸ hbody)
  have hnone := hfound ⟨2⟩ (by rw [hsame]; decide) _ rfl rfl
  have heither := hfound ⟨4⟩ (by rw [hsame]; decide) _ rfl ⟨⟨2⟩, by decide, hnone⟩
  have hall :=
    hfound ⟨3⟩ (by rw [hsame]; decide) _ rfl ⟨List.cons_ne_nil _ _, by simp [hnone, heither]⟩
  have hin : ⟨3⟩ ∈ g.nullableRules := hn.flagged_nullable ⟨3⟩ (by rw [hsame]; decide) hall
  have hout : ⟨1⟩ ∉ g.nullableRules := by
    intro hflagged
    refine (RuleGraph.empties_of_flagged hgraph hrun hflagged).rec (P := (· ≠ ⟨1⟩)) ?_ rfl
    rintro y found hfound hbody rfl
    obtain ⟨found', hfound', heq⟩ := hbodies.symm.rule? hfound
    cases hfound'
    have hempty : "ß" = "" := (heq ▸ hbody : RuleBody.NullableBy _ (.literal "ß"))
    exact absurd hempty (by decide)
  let r : Recognizer := { graph := g.graph, buffer := .ofList ['a', 'ß'] }
  have hplain : r.Plain ⟨3⟩ 1 (.ok moved) := by
    have hsame :=
      @Recognizer.interpret_congr { graph := registered, buffer := r.buffer } r hbodies rfl 4
    exact ⟨4, by rw [hsame]; rfl⟩
  have hpos : Boundary ['a', 'ß'] 1 := by decide
  obtain ⟨hmatched, happly | ⟨_, hlimit, _⟩⟩ := nullable_matches hgraph hrun rfl hin hpos hplain
  · exact ⟨hgraph, g, hrun, ⟨hin, hout⟩, hpos, hplain, hmatched, happly⟩
  · cases hlimit

end Packrat
