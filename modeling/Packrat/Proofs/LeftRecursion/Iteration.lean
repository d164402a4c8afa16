import Packrat.Proofs.LeftRecursion.Rounds
import Packrat.Proofs.LeftRecursion.Seeding
import Packrat.Proofs.Recognition.Termination

/-! Left recursion is iteration.

A rule that leads back to itself through chains of sequences, applied in a new session,
answers by its first base that matches, with as many rounds around it as there are pieces to
be matched (`apply_iterates`): the first evaluation finds the cycles and comes down to the
bases, and growth does the rest. -/
namespace Packrat
open Recognizer

variable {r : Recognizer} {top : RuleId} {chains : List Chain} {bases : List RuleId} {pos : Nat}
  {ans : RuleId → Nat → Answer} {id : HeadId} {s : Session}

/-- A match of the first base that matches, and of the pieces of chains as long as they add
something; or no match. -/
structure Answer.Iterated (ans : RuleId → Nat → Answer) (top : RuleId) (pos : Nat)
    (chains : List Chain) (bases : List RuleId) (a : Answer) : Prop where
  matched : a.matched = true ↔ ∃ b ∈ bases, (ans b pos).matched = true
  rounds : ∀ b, bases.find? (fun b => (ans b pos).matched) = some b → ∃ rounds,
    Iterates ans chains (pos + (ans b pos).length) rounds (pos + a.length) ∧
      a = grown top pos (alternative top pos (ans b pos)) rounds

/-! ### The head of the rule -/

theorem Seeding.top_anchor {found : List RuleId}
    (w : Seeding r top chains pos found (some id) none [] s) : s.top = some (id, true) := by
  obtain ⟨h, hs, hanchor, _⟩ := w.head id rfl
  rw [top_eq w.frames, Option.map_some, hs, Option.any_some, hanchor]

/-- With all cycles found the rule begins to grow. -/
theorem Seeding.startGrowth (S : Setting r top chains bases pos ans) {best : Answer}
    (w : Seeding r top chains pos (chains.flatMap (List.map Prod.fst)) (some id) none [] s) :
    Growing r top chains pos id best
      ((s.leave.remember top pos (.final best)).startGrowth id pos) := by
  obtain ⟨h, hs, _, hlinked⟩ := w.head id rfl
  rw [remember_of_not_growing (s := s.leave) (w.growing pos)]
  refine ⟨w.faithful.insert S.endless_top rfl, fun p => ?_, Std.HashMap.getElem?_insert_self, h,
    hs, fun x => ⟨hlinked x, fun hx => ?_⟩⟩
  · rw [growing_startGrowth]
    exact if_congr eq_comm rfl (w.growing p)
  · obtain ⟨piece, rest, chain, hchain, hsuffix⟩ := hx
    have hmem : x ∈ chain.map Prod.fst :=
      List.mem_map.mpr ⟨_, hsuffix.subset (List.mem_cons_self ..), rfl⟩
    obtain ⟨i, hi, h', hs', hx⟩ := w.known x (List.mem_flatMap.mpr ⟨chain, hchain, hmem⟩)
    cases hi
    cases hs.symm.trans hs'
    exact hx

/-- Growth ends where no chain adds anything. -/
theorem grow_reaches (S : Setting r top chains bases pos ans) {seed : Answer}
    (hm : seed.matched = true) (hstart : seed.start = pos)
    (hbase : (baseAnswer ans top pos bases).length ≤ seed.length) (depth : Nat) :
    Reaches (fun s => Growing r top chains pos id seed (s.startGrowth id pos))
      (grow (tracedBody (r.applyWithin depth) r) r id top pos seed) fun a _ => a.start = pos ∧
        ∃ rounds, a = grown top pos seed rounds ∧ Iterates ans chains seed.stop rounds a.stop := by
  obtain ⟨found, hfound, _⟩ := S.shape.rule
  intro s hs
  rw [grow, ends_bind, ends_get, ends_bind, ends_modify, ends_bind, ends_outcomeOf]
  refine (growRounds_reaches S _ { best := seed } depth hm hstart hbase _ hs).mono
    (fun growth s₁ h => ?_) fun e s₁ he => ?_
  · rw [endGrow, ends_bind, ends_modify, ends_bind, ends_result]
    dsimp only
    rw [ends_bind, ends_modify, ends_bind, ends_modify, orStop_rule hfound, pure_bind]
    exact h
  · rw [endGrow, ends_bind, ends_modify, ends_bind, ends_result]
    exact he

/-- The rule is applied first of all. -/
theorem Seeding.start (S : Setting r top chains bases pos ans) :
    Seeding r top chains pos [] none none [] (Session.enter (Session.counted {}) top pos) := by
  have hfaithful : Session.Faithful r (Session.counted {}) :=
    (Session.faithful_start r).congr fun _ => .inl rfl
  refine ⟨hfaithful.insert S.endless_top rfl, fun p => Std.HashMap.getElem?_empty, rfl,
    fun _ h => absurd h List.not_mem_nil, Std.HashMap.getElem?_insert_self, fun _ h => (by cases h),
    fun _ h => (by cases h), fun _ h => absurd h List.not_mem_nil, fun x piece rest ht _ => .inl ?_⟩
  have hne : (x, pos) ≠ (top, pos) := fun h => S.ne_top ht (congrArg Prod.fst h)
  exact (setEntry_other hne _).trans Std.HashMap.getElem?_empty

theorem applyWithin_iterates (S : Setting r top chains bases pos ans) (depth : Nat) :
    Ends (r.applyWithin depth top pos) {} (fun a _ => a.Iterated ans top pos chains bases)
      fun e _ => e.Lapse := by
  cases depth with
  | zero => trivial
  | succ depth =>
    rw [ends_fresh S.limit (not_eligible Std.HashMap.getElem?_empty) Std.HashMap.getElem?_empty]
    refine applyFresh_reaches (seed_reaches S depth) (fun a s h => ?_) _ (Seeding.start S)
    obtain ⟨rfl, id, w⟩ := h
    cases hfind : bases.find? fun b => (ans b pos).matched with
    | none =>
      have hbase : baseAnswer ans top pos bases = .fail top pos := by rw [baseAnswer, hfind]
      rw [hbase]
      refine ⟨id, .inr ⟨w.top_anchor, fun _ => ⟨⟨fun hm => ?_, fun h => ?_⟩, fun b hb => ?_⟩,
        fun hm => ?_⟩⟩
      · cases hm
      · obtain ⟨b, hb, hm⟩ := h
        exact absurd hm (List.find?_eq_none.mp hfind b hb)
      · cases hfind.symm.trans hb
      · cases hm
    | some b =>
      have hbase : baseAnswer ans top pos bases = alternative top pos (ans b pos) := by
        rw [baseAnswer, hfind]
      refine ⟨id, .inr ⟨w.top_anchor, fun hfail => ?_, fun hm => ?_⟩⟩
      · rw [hbase] at hfail
        cases hfail
      · have hb : (ans b pos).matched = true := by simpa using List.find?_some hfind
        rw [hbase] at hm ⊢
        have hlength : (baseAnswer ans top pos bases).length ≤
            (alternative top pos (ans b pos)).length :=
          Nat.le_of_eq (by rw [hbase])
        refine (grow_reaches S hm rfl hlength depth _ (w.startGrowth S)).mono (fun a s' h => ?_)
          fun _ _ he => he
        obtain ⟨hstart, rounds, ha, hrounds⟩ := h
        refine ⟨⟨fun _ => ⟨b, List.mem_of_find?_eq_some hfind, hb⟩, fun _ => ?_⟩, fun b' hb' => ?_⟩
        · rw [ha]
          exact grown_matched rfl rounds
        · cases hfind.symm.trans hb'
          have hstop : a.stop = pos + a.length := by rw [Answer.stop, hstart]
          exact ⟨rounds, hstop ▸ hrounds, ha⟩

/-- A left-recursive rule answers in a new session as the iteration does that it stands for. -/
theorem apply_iterates (hshape : LeftRecursive r.graph top chains bases)
    (hclosed : r.graph.ClosedFrom top) (hlimit : r.stepLimit = none)
    (hplain : ∀ x, (x ∈ bases ∨ ∃ chain ∈ chains, x ∈ chain.map Prod.snd) →
      ∀ q, pos ≤ q → r.Plain x q (.ok (ans x q))) :
    ∃ a, (r.apply top pos {}).1 = .ok a ∧ a.Iterated ans top pos chains bases := by
  have hcontains : r.graph.contains top = true := by
    obtain ⟨found, hfound, _⟩ := hshape.rule
    exact RuleGraph.contains_of_rule? hfound
  have hends := apply_upholds r top pos {} (.start r)
  have hiterates := applyWithin_iterates ⟨hshape, hlimit, hplain⟩ r.depthBound
  rw [apply, if_pos hcontains] at hends ⊢
  obtain ⟨a, s', hrun, hiterated, _⟩ | ⟨e, s', hrun, hlapse, hpermitted, _⟩ :=
    (hiterates.and hends).cases
  · exact ⟨a, by rw [hrun], hiterated⟩
  · cases e with
    | error e => exact hlapse.elim
    | dangling i => exact absurd rfl (hpermitted.2 hcontains hclosed i)
    | exhausted => exact absurd rfl hpermitted.1

theorem apply_iterates_list :
    let g : RuleGraph := ⟨#[⟨"list", .choice [⟨1⟩, ⟨3⟩], {}⟩, ⟨"more", .sequence [⟨2⟩, ⟨4⟩], {}⟩,
      ⟨"longer", .sequence [⟨0⟩, ⟨3⟩], {}⟩, ⟨"item", .literal "x", {}⟩, ⟨"mark", .literal ";", {}⟩]⟩
    let r : Recognizer := { graph := g, buffer := .ofList ['x', 'x', ';', 'x', ';'] }
    let chains : List Chain := [[(⟨1⟩, ⟨4⟩), (⟨2⟩, ⟨3⟩)]]
    let text (x : RuleId) : String := if x = ⟨3⟩ then "x" else ";"
    let ans (x : RuleId) (q : Nat) : Answer :=
      if (r.buffer.suffix? q).any (text x).toList.isPrefixOf then .node x q (text x).utf8ByteSize []
      else .fail x q
    LeftRecursive g ⟨0⟩ chains [⟨3⟩] ∧ g.ClosedFrom ⟨0⟩ ∧ r.stepLimit = none ∧
      (∀ x, (x ∈ [(⟨3⟩ : RuleId)] ∨ ∃ chain ∈ chains, x ∈ chain.map Prod.snd) →
        ∀ q, 0 ≤ q → r.Plain x q (.ok (ans x q))) ∧
      ∃ a, (r.apply ⟨0⟩ 0 {}).1 = .ok a ∧ a.Iterated ans ⟨0⟩ 0 chains [⟨3⟩] := by
  intro g r chains text ans
  have hshape : LeftRecursive g ⟨0⟩ chains [⟨3⟩] := by
    refine ⟨⟨_, rfl, rfl⟩, by decide, by decide, fun chain hchain => ?_, by decide⟩
    obtain rfl := List.mem_singleton.mp hchain
    exact ⟨⟨_, rfl, rfl⟩, ⟨_, rfl, rfl⟩, trivial⟩
  have hclosed : g.Closed := by decide
  have hplain : ∀ x, (x ∈ [(⟨3⟩ : RuleId)] ∨ ∃ chain ∈ chains, x ∈ chain.map Prod.snd) →
      ∀ q, 0 ≤ q → r.Plain x q (.ok (ans x q)) := by
    intro x hx q _
    have hcases : x = ⟨3⟩ ∨ x = ⟨4⟩ := by
      simp [chains] at hx
      grind
    rcases hcases with rfl | rfl
    · exact ⟨1, rfl⟩
    · exact ⟨1, rfl⟩
  exact ⟨hshape, hclosed.closedFrom ⟨0⟩, rfl, hplain,
    apply_iterates hshape (hclosed.closedFrom ⟨0⟩) rfl hplain⟩

end Packrat
