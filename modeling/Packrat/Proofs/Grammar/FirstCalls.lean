import Packrat.Proofs.Grammar.EmptyMatch
import Packrat.Proofs.Recognition.Cycles

/-! Left corners and what is applied at one offset.

The left corners of a registered rule are what its first calls lead to
(`Grammar.Analyzed.couldStartWith_iff`). What the evaluation of a body applies at its own offset is
among them: a sequence goes on there only after rules that match the empty text, and these are found
by the analysis. The end of the buffer is left out of that, so this holds at other offsets, and
everywhere if no registered rule matches the end (`Grammar.NoEndAt`). -/
namespace Packrat

theorem mem_uptoFirstNot {α : Type} {p : α → Bool} {before after : List α} {a : α}
    (h : ∀ b ∈ before, p b = true) : a ∈ uptoFirstNot p (before ++ a :: after) := by
  induction before with
  | nil =>
    rw [List.nil_append, uptoFirstNot]
    split <;> exact List.mem_cons_self ..
  | cons b rest ih =>
    rw [List.cons_append, uptoFirstNot, if_pos (h b (List.mem_cons_self ..))]
    exact List.mem_cons_of_mem _ (ih fun d hd => h d (List.mem_cons_of_mem _ hd))

theorem Rule.firstCalls_congr {found found' : Rule} (h : found'.body = found.body)
    (nullable : Std.HashSet RuleId) : found'.firstCalls nullable = found.firstCalls nullable := by
  rw [Rule.firstCalls, Rule.firstCalls, h]

namespace RuleGraph
variable {g g' : RuleGraph} {nullable : Std.HashSet RuleId} {rules : List RuleId} {x y : RuleId}

/-- One rule is a first call of another. -/
abbrev CallsFirst (g : RuleGraph) (nullable : Std.HashSet RuleId) : RuleId → RuleId → Prop :=
  g.Leads (·.firstCalls nullable)

theorem SameBodies.callsFirst (hsame : g.SameBodies g')
    (h : Relation.TransGen (g.CallsFirst nullable) x y) :
    Relation.TransGen (g'.CallsFirst nullable) x y := by
  refine Relation.TransGen.mono (fun z w hz => ?_) x y h
  obtain ⟨found, hfound, hw⟩ := hz
  obtain ⟨found', hfound', hbody⟩ := hsame.rule? hfound
  exact ⟨found', hfound', (congrArg (w ∈ ·) (Rule.firstCalls_congr hbody nullable)).mpr hw⟩

/-- The left corners of a rule are what its first calls lead to. -/
theorem mem_cornersOf {corners : Std.HashSet RuleId} (h : g.cornersOf nullable x = .ok corners) :
    y ∈ corners ↔ Relation.TransGen (g.CallsFirst nullable) x y := by
  rw [cornersOf, firstCalls, rule] at h
  cases hx : g.rule? x with
  | none => rw [hx] at h; cases h
  | some found =>
    rw [hx] at h
    simp only [bind, Except.bind, Functor.map, Except.map] at h
    cases hwalk : (g.walk (·.firstCalls nullable) (found.firstCalls nullable)).all with
    | error e =>
      rw [hwalk] at h
      cases h
    | ok visited =>
      rw [hwalk] at h
      cases h
      rw [Std.HashSet.mem_ofList, List.contains_iff_mem, mem_walk hwalk,
        Relation.TransGen.head'_iff]
      constructor
      · rintro ⟨z, hz, hled⟩
        exact ⟨z, ⟨found, hx, hz⟩, hled⟩
      · rintro ⟨z, ⟨found', hfound', hz⟩, hled⟩
        cases hx.symm.trans hfound'
        exact ⟨z, hz, hled⟩

theorem foldlM_corners {known corners : Std.HashMap RuleId (Std.HashSet RuleId)}
    (h : rules.foldlM (fun corners id => return corners.insert id (← g.cornersOf nullable id))
        known = .ok corners) :
    (x ∉ rules → corners[x]? = known[x]?) ∧
      (x ∈ rules → ∃ found, g.cornersOf nullable x = .ok found ∧ corners[x]? = some found) := by
  induction rules generalizing known with
  | nil =>
    cases h
    exact ⟨fun _ => rfl, fun hx => absurd hx List.not_mem_nil⟩
  | cons y rest ih =>
    rw [List.foldlM_cons] at h
    simp only [bind, Except.bind] at h
    cases hy : g.cornersOf nullable y with
    | error e => rw [hy] at h; cases h
    | ok found =>
      rw [hy] at h
      obtain ⟨hother, hrest⟩ := ih h
      refine ⟨fun hx => ?_, fun hx => ?_⟩
      · obtain ⟨hxy, hx⟩ := not_or.mp (mt List.mem_cons.mpr hx)
        rw [hother hx, Std.HashMap.getElem?_insert, if_neg (by simpa using Ne.symm hxy)]
      · by_cases hmem : x ∈ rest
        · exact hrest hmem
        obtain rfl := (List.mem_cons.mp hx).resolve_right hmem
        exact ⟨found, hy, (hother hmem).trans Std.HashMap.getElem?_insert_self⟩

theorem leftCorners_eq_ok {corners : LeftCorners} (h : g.leftCorners nullable rules = .ok corners) :
    rules.foldlM (fun corners id => return corners.insert id (← g.cornersOf nullable id))
      (∅ : Std.HashMap RuleId (Std.HashSet RuleId)) = .ok corners.corners := by
  rw [leftCorners] at h
  cases hbuilt : rules.foldlM (fun (corners : Std.HashMap RuleId (Std.HashSet RuleId)) id =>
      return corners.insert id (← g.cornersOf nullable id)) ∅ with
  | error e =>
    rw [hbuilt] at h
    cases h
  | ok known =>
    rw [hbuilt] at h
    cases h
    rfl

theorem leftCorners_iff {corners : LeftCorners} (h : g.leftCorners nullable rules = .ok corners)
    (hx : x ∈ rules) :
    corners.couldStartWith x y = true ↔ Relation.TransGen (g.CallsFirst nullable) x y := by
  obtain ⟨found, hfound, hthere⟩ := (foldlM_corners (leftCorners_eq_ok h)).2 hx
  rw [LeftCorners.couldStartWith, hthere, Option.any_some, ← mem_cornersOf hfound,
    Std.HashSet.mem_iff_contains]

end RuleGraph

namespace Grammar
variable {g : Grammar} {n : Analysis} {r : Recognizer} {x y : RuleId} {pos : Nat}

/-- What a registered rule could start with is what its first calls lead to. -/
theorem Analyzed.couldStartWith_iff (hn : g.Analyzed n) (hx : x ∈ g.rules) :
    g.couldStartWith x y = true ↔ Relation.TransGen
      (g.graph.CallsFirst n.nullability.rules) x y := by
  obtain ⟨graph, hsame, hcorners⟩ := hn.corners
  rw [couldStartWith, hn.analysis, Option.any_some, RuleGraph.leftCorners_iff hcorners hx]
  exact ⟨hsame.callsFirst, hsame.symm.callsFirst⟩

/-- Nothing matches the end of the buffer there. -/
def NoEndAt (g : Grammar) (r : Recognizer) (pos : Nat) : Prop :=
  pos = r.buffer.size → ∀ x, ¬ g.MatchesEnd x

section
variable (hg : g.graph.Resolved (· ∈ g.rules)) (hn : g.Analyzed n) (hr : r.graph = g.graph)
include hg hn hr

theorem nullable_of_mayBeEmpty (hx : x ∈ g.rules) (hend : g.NoEndAt r pos)
    (h : r.MayBeEmpty x pos) : n.nullability.rules.contains x = true := by
  obtain ⟨a, ha, hm, h0⟩ := h
  rcases (ha.derived hm).nullable hg hn hr h0 (ha.rule_eq ▸ hx) with hfound | ⟨hpos, e, _, hmatches⟩
  · exact Std.HashSet.mem_iff_contains.mp (ha.rule_eq ▸ hfound)
  · exact absurd hmatches (hend (ha.start_eq ▸ hpos) e.rule)

/-- What a body may call at its own offset is a first call of its rule. -/
theorem callsFirst_of_calls (hx : x ∈ g.rules) (hend : g.NoEndAt r pos)
    (h : r.Calls (x, pos) (y, pos)) : g.graph.CallsFirst n.nullability.rules x y := by
  obtain ⟨_, found, hfound, happly⟩ := h
  refine ⟨found, hr ▸ hfound, ?_⟩
  have hrefers : ∀ z ∈ found.body.children, z ∈ g.rules :=
    fun z hz => hg.refers hx ⟨found, hr ▸ hfound, hz⟩
  show y ∈ found.firstCalls _
  rw [Rule.firstCalls]
  generalize found.body = body at happly hrefers
  cases body with
  | sequence rules =>
    obtain ⟨before, after, rfl, hempty⟩ := happly
    refine mem_uptoFirstNot fun z hz => ?_
    exact nullable_of_mayBeEmpty hg hn hr (hrefers z (List.mem_append_left _ hz)) hend
      (hempty rfl z hz)
  | choice rules => exact happly.1
  | optional child => exact List.mem_singleton.mpr happly.1
  | repetition child => exact List.mem_singleton.mpr happly
  | _ => exact happly.elim

/-- Calls that lead back to an offset at which they began are first calls. -/
theorem callsFirst_of_led {k k' : Key} (hx : k.1 ∈ g.rules) (hend : g.NoEndAt r k.2)
    (h : Relation.TransGen r.Calls k k') (hpos : k'.2 = k.2) :
    Relation.TransGen (g.graph.CallsFirst n.nullability.rules) k.1 k'.1 := by
  induction h with
  | @single k' hcalls =>
    obtain ⟨y, q⟩ := k'
    cases hpos
    exact .single (callsFirst_of_calls hg hn hr hx hend hcalls)
  | @tail m k' hled hcalls ih =>
    obtain ⟨y, q⟩ := k'
    obtain ⟨z, p⟩ := m
    obtain rfl : p = k.2 :=
      Nat.le_antisymm (Nat.le_trans hcalls.1.le (Nat.le_of_eq hpos)) (Recognizer.Calls.led_le hled)
    cases hpos
    have hz : z ∈ g.rules := hg.leadsTo hx (hr ▸ Recognizer.Calls.led_refers hled)
    exact (ih rfl).tail (callsFirst_of_calls hg hn hr hz hend hcalls)

/-- What calls at one offset lead to is a left corner. -/
theorem couldStartWith_of_led (hx : x ∈ g.rules) (hend : g.NoEndAt r pos)
    (h : Relation.TransGen r.Calls (x, pos) (y, pos)) : g.couldStartWith x y = true :=
  (hn.couldStartWith_iff hx).mpr (callsFirst_of_led hg hn hr (k := (x, pos)) hx hend h rfl)

/-- A registered rule on a cycle of calls at one offset is flagged left-recursive. -/
theorem leftRecursive_of_cycle {k : Key} (hx : k.1 ∈ g.rules) (hend : g.NoEndAt r k.2)
    (h : r.OnCycle k) : k.1 ∈ g.leftRecursiveRules := by
  have hcould : g.couldStartWith k.1 k.1 = true := couldStartWith_of_led hg hn hr hx hend h
  rw [couldStartWith, hn.analysis] at hcould
  exact hn.flagged_leftRecursive k.1 hx hcould

end

end Grammar

/-- In a closed grammar, whatever the evaluation of the body of a registered rule applies at its own
offset, directly or not, is a left corner of the rule; at every moment, each head that a registered
rule anchors has one that is flagged left-recursive; and if none is flagged, applying a registered
rule makes no head, whatever was applied before. This is so wherever no registered rule matches the
end of the buffer. -/
theorem leftCorners_cover {g : Grammar} (hg : g.Reachable) (hfinal : g.isFinalized = true)
    {r : Recognizer} (hr : r.graph = g.graph) :
    (∀ c c' : Recognizer.Call, c.Begun r → c.task = .evaluate → c.rule ∈ g.rules →
      g.NoEndAt r c.pos →
      r.Nested c c' → c'.task = .apply → c'.pos = c.pos → g.couldStartWith c.rule c'.rule = true) ∧
    (∀ s, r.Moment s → ∀ (id : HeadId) (h : Head), s.heads[id]? = some h → h.rule ∈ g.rules →
      g.NoEndAt r h.pos → h.rule ∈ g.leftRecursiveRules) ∧
    (g.leftRecursiveRules = [] → (∀ x, ¬ g.MatchesEnd x) → ∀ s, r.Reachable s →
      ∀ x ∈ g.rules, ∀ pos, (r.apply x pos s).2.nextHead = s.nextHead) := by
  obtain ⟨n, hn⟩ := hg.analyzed hfinal
  have hcycle : ∀ k : Key, k.1 ∈ g.rules → g.NoEndAt r k.2 → r.OnCycle k →
      k.1 ∈ g.leftRecursiveRules := fun k hk =>
    Grammar.leftRecursive_of_cycle hg.resolved hn hr hk
  refine ⟨fun c c' hbegun htask hrule hend hnested htask' hpos => ?_,
    fun s hs id h hhead hrule hend => ?_, fun hnone hends s hs x hx pos => ?_⟩
  · have hled :=
      (show c.LedFrom r c.key by rw [Recognizer.Call.LedFrom, htask]).nested hbegun hnested
    rw [Recognizer.Call.LedFrom, htask'] at hled
    refine Grammar.couldStartWith_of_led hg.resolved hn hr hrule hend ?_
    rwa [Recognizer.Call.key, Recognizer.Call.key, hpos] at hled
  · exact hcycle h.key hrule hend (hs.cyclic hhead)
  · have hmade : Anchors (fun k => k.1 ∈ g.rules ∧ r.OnCycle k) s.nextHead s := by
      refine ⟨fun id h hid hhead => ?_, .inl rfl⟩
      exact absurd (hs.disciplined.tracked.made id h hhead) (Nat.not_lt.mpr hid)
    have hbegun : Recognizer.Call.Begun r ⟨.apply, r.depthBound, x, pos, s⟩ :=
      Recognizer.Begun.first pos hs (hr ▸ hg.resolved.contains hx)
    have hkept :=
      hs.apply_anchors (fun c hnested hon => ⟨hg.resolved.leadsTo hx (hr ▸ hbegun.refers hnested),
      hon⟩) hmade
    refine hkept.made.resolve_right fun hnew => ?_
    obtain ⟨k, hk, hon⟩ := hnew
    exact absurd (hcycle k hk (fun _ => hends) hon) (hnone ▸ List.not_mem_nil)

set_option maxRecDepth 20000 in
/-- A list applies itself at its own offset by way of its first alternative, and becomes an
anchor. -/
theorem leftCorners_cover_list :
    let graph : RuleGraph :=
  ⟨#[⟨"list", .choice [⟨1⟩, ⟨2⟩], {}⟩, ⟨"more", .sequence [⟨0⟩, ⟨2⟩], {}⟩,
      ⟨"x", .literal "x", {}⟩]⟩
    let flagged : RuleGraph := ⟨#[⟨"list", .choice [⟨1⟩, ⟨2⟩], { leftRecursive := true }⟩,
      ⟨"more", .sequence [⟨0⟩, ⟨2⟩], { leftRecursive := true }⟩, ⟨"x", .literal "x", {}⟩]⟩
    let r : Recognizer := { graph := flagged, buffer := .ofList ['x', 'x'] }
    let s := (Session.counted {}).enter ⟨0⟩ 0
    let t := s.counted.enter ⟨1⟩ 0
    let c : Recognizer.Call := ⟨.evaluate, 498 + 1, ⟨0⟩, 0, s⟩
    let c' : Recognizer.Call := ⟨.apply, 498, ⟨0⟩, 0, t⟩
    ∃ g : Grammar, (Grammar.register { graph } [⟨0⟩]).2.analyze = .ok g ∧ g.Reachable ∧
      g.isFinalized = true ∧ r.graph = g.graph ∧ c.Begun r ∧ r.Nested c c' ∧
      ((c'.run r).2.heads[(0 : HeadId)]?).map Head.key = some (⟨0⟩, 0) ∧
      g.couldStartWith ⟨0⟩ ⟨0⟩ = true ∧ ⟨0⟩ ∈ g.leftRecursiveRules := by
  intro graph flagged r s t c c'
  have hgraph : (Grammar.register { graph } [⟨0⟩]).2.analyze.map (·.graph) = .ok flagged := by
    simp only [Grammar.analyze, RuleGraph.nullability, RuleGraph.leftCorners, RuleGraph.cornersOf,
      hashSet_ofList_eq_foldl]
    cbv
  have hrules : (Grammar.register { graph } [⟨0⟩]).2.rules = [⟨0⟩, ⟨1⟩, ⟨2⟩] := by cbv
  have hdepth : r.depthBound = 498 + 1 + 1 := by cbv
  have hsize : r.buffer.size = 2 := by cbv
  cases hg : (Grammar.register { graph } [⟨0⟩]).2.analyze with
  | error e => rw [hg] at hgraph; cases hgraph
  | ok g =>
    rw [hg] at hgraph
    obtain ⟨hfinal, hsame, _⟩ := Grammar.analyze_ok hg
    have hreachable : g.Reachable := .analyze (.register [⟨0⟩] (.new graph)) hg
    have hr : r.graph = g.graph := (Except.ok.inj hgraph).symm
    have hx : ⟨0⟩ ∈ g.rules := by
      rw [hsame, hrules]
      exact List.mem_cons_self ..
    have hfirst : r.Begun .apply (498 + 1 + 1) ⟨0⟩ 0 {} :=
      hdepth ▸ Recognizer.Begun.first 0 .start rfl
    have hbegun : c.Begun r :=
      Recognizer.Begun.fresh rfl hfirst (not_eligible Std.HashMap.getElem?_empty)
      Std.HashMap.getElem?_empty
    have hnone : s.memo[((⟨1⟩, 0) : Key)]? = none :=
      (setEntry_other (by decide) _).trans Std.HashMap.getElem?_empty
    have hmore : r.Begins c ⟨.apply, 498 + 1, ⟨1⟩, 0, s⟩ :=
      .applies (Recognizer.choice_halts rfl ⟨_, rfl, rfl⟩)
    have hbody : r.Begins ⟨.apply, 498 + 1, ⟨1⟩, 0, s⟩ ⟨.evaluate, 498, ⟨1⟩, 0, t⟩ :=
      .evaluates (Recognizer.fresh_halts rfl (not_eligible Std.HashMap.getElem?_empty) hnone)
    have hlist : r.Begins ⟨.evaluate, 498, ⟨1⟩, 0, t⟩ c' :=
      .applies (Recognizer.sequence_halts rfl ⟨_, rfl, rfl⟩)
    have hnested : r.Nested c c' := .tail (.tail (.single hmore) hbody) hlist
    have hmoment : r.Moment (c'.run r).2 := Recognizer.Moment.ends (hbegun.nested hnested)
    have hhead : ((c'.run r).2.heads[(0 : HeadId)]?).map Head.key = some (⟨0⟩, 0) := by cbv
    have hend : g.NoEndAt r 0 := fun h => absurd (h.trans hsize) (by decide)
    obtain ⟨h, hthere, hkey⟩ := Option.map_eq_some_iff.mp hhead
    obtain ⟨hrule, hpos⟩ : h.rule = ⟨0⟩ ∧ h.pos = 0 := Prod.mk.inj hkey
    obtain ⟨hcorner, hanchor, _⟩ := leftCorners_cover hreachable hfinal hr
    have hrec : h.rule ∈ g.leftRecursiveRules :=
      hanchor _ hmoment 0 h hthere (hrule.symm ▸ hx) (hpos.symm ▸ hend)
    exact ⟨g, rfl, hreachable, hfinal, hr, hbegun, hnested, hhead,
      hcorner c c' hbegun rfl hx hend hnested rfl rfl, hrule ▸ hrec⟩

set_option maxRecDepth 20000 in
/-- The end of the buffer matches without consuming anything, and the sequence goes on to the choice
at the same offset. But it is no rule that matches the empty text, so neither of the two is found to
be left-recursive. -/
theorem head_without_leftRecursion :
    let graph : RuleGraph :=
  ⟨#[⟨"a", .choice [⟨1⟩], {}⟩, ⟨"s", .sequence [⟨2⟩, ⟨0⟩], {}⟩, ⟨"end", .endOfInput, {}⟩]⟩
    let r : Recognizer := { graph, buffer := .ofList [] }
    ∃ g : Grammar, (Grammar.register { graph } [⟨0⟩]).2.analyze = .ok g ∧ g.graph = graph ∧
    ⟨0⟩ ∈ g.rules ∧ g.couldStartWith ⟨0⟩ ⟨0⟩ = false ∧ g.leftRecursiveRules = [] ∧
      (r.apply ⟨0⟩ 0 {}).2.nextHead = 1 := by
  intro graph r
  have hanalysis : (Grammar.register { graph } [⟨0⟩]).2.analyze.map (fun g =>
      (g.graph, g.rules, g.couldStartWith ⟨0⟩ ⟨0⟩, g.leftRecursiveRules)) =
        .ok (graph, [⟨0⟩, ⟨1⟩, ⟨2⟩], false, []) := by
    simp only [Grammar.analyze, RuleGraph.nullability, RuleGraph.leftCorners, RuleGraph.cornersOf,
      hashSet_ofList_eq_foldl]
    cbv
  have hmade : (r.apply ⟨0⟩ 0 {}).2.nextHead = 1 := by cbv
  cases hg : (Grammar.register { graph } [⟨0⟩]).2.analyze with
  | error e => rw [hg] at hanalysis; cases hanalysis
  | ok g =>
    rw [hg] at hanalysis
    simp only [Except.map, Except.ok.injEq, Prod.mk.injEq] at hanalysis
    obtain ⟨hgraph, hrules, hcould, hnone⟩ := hanalysis
    exact ⟨g, rfl, hgraph, hrules ▸ List.mem_cons_self .., hcould, hnone, hmade⟩

end Packrat
