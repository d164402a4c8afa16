import Packrat.Proofs.Grammar.RegistrationOrder

/-! Left corners are exactly what paths of first calls lead to.

A body begins with a rule if everything in front of that rule may be passed over
(`RuleBody.BeginsWith`), and the first calls of a rule are what its body begins with
(`Rule.mem_firstCalls_iff`). The search for left corners starts from the first calls of a rule and
not from the rule, so the rule is found only where a path comes back to it, which makes it
left-recursive. In a closed graph every search comes to its end, whatever cycles it goes round, and
finds what such paths lead to and nothing else (`leftCorners_exact`). -/
namespace Packrat

/-- Which rule a body may apply first where it is evaluated, if rules of which `P` holds may be
passed over. -/
def RuleBody.BeginsWith (P : RuleId → Prop) (y : RuleId) : RuleBody → Prop
  | .choice rules => y ∈ rules
  | .sequence rules => ∃ before after, rules = before ++ y :: after ∧ ∀ z ∈ before, P z
  | .optional rule | .repetition rule => y = rule
  | .literal _ | .pattern _ | .epsilon | .endOfInput | .reference _ => False

theorem mem_uptoFirstNot_iff {α : Type} {p : α → Bool} {l : List α} {a : α} :
    a ∈ uptoFirstNot p l ↔ ∃ before after, l = before ++ a :: after ∧ ∀ b ∈ before, p b = true := by
  constructor
  · intro h
    induction l with
    | nil => cases h
    | cons b rest ih =>
      rw [uptoFirstNot] at h
      by_cases hb : p b = true
      · rw [if_pos hb] at h
        rcases List.mem_cons.mp h with rfl | h
        · exact ⟨[], rest, rfl, List.forall_mem_nil _⟩
        · obtain ⟨before, after, rfl, hbefore⟩ := ih h
          exact ⟨b :: before, after, rfl, List.forall_mem_cons.mpr ⟨hb, hbefore⟩⟩
      · rw [if_neg hb] at h
        obtain rfl := List.mem_singleton.mp h
        exact ⟨[], rest, rfl, List.forall_mem_nil _⟩
  · rintro ⟨before, after, rfl, hbefore⟩
    exact mem_uptoFirstNot hbefore

/-- The first calls of a rule are the rules that its body begins with. -/
theorem Rule.mem_firstCalls_iff {nullable : Std.HashSet RuleId} {found : Rule} {y : RuleId} :
    y ∈ found.firstCalls nullable ↔ found.body.BeginsWith (· ∈ nullable) y := by
  rw [Rule.firstCalls]
  cases found.body with
  | sequence rules =>
    simp only [mem_uptoFirstNot_iff, RuleBody.BeginsWith, Std.HashSet.mem_iff_contains]
  | choice rules => exact Iff.rfl
  | optional rule | repetition rule => exact List.mem_singleton
  | literal _ | pattern _ | epsilon | endOfInput | reference _ =>
    exact iff_of_false List.not_mem_nil id

namespace RuleGraph
variable {g : RuleGraph} {nullable : Std.HashSet RuleId} {rules : List RuleId} {x y : RuleId}

/-- A rule of the graph may apply another one first, if rules of which `P` holds may be passed
over. -/
def BeginsWith (g : RuleGraph) (P : RuleId → Prop) (x y : RuleId) : Prop :=
  ∃ found, g.rule? x = some found ∧ found.body.BeginsWith P y

theorem callsFirst_eq_beginsWith (g : RuleGraph) (nullable : Std.HashSet RuleId) :
    g.CallsFirst nullable = g.BeginsWith (· ∈ nullable) := by
  funext x y
  exact propext (exists_congr fun found => and_congr_right fun _ => Rule.mem_firstCalls_iff)

/-- The rules that are listed have as left corners what paths of first calls lead to; no other rule
has any. -/
theorem couldStartWith_iff {corners : LeftCorners}
    (h : g.leftCorners nullable rules = .ok corners) :
    corners.couldStartWith x y = true ↔ x ∈ rules ∧ Relation.TransGen
      (g.BeginsWith (· ∈ nullable)) x y := by
  by_cases hx : x ∈ rules
  · rw [leftCorners_iff h hx, callsFirst_eq_beginsWith, and_iff_right hx]
  · rw [couldStartWith_of_not_mem h hx]
    exact iff_of_false Bool.false_ne_true fun hpath => hx hpath.1

/-- A number that belongs to no rule ends the analysis where it is first listed. -/
theorem leftCorners_dangling (hg : g.Closed) (hx : rules.find? (!g.contains ·) = some x) :
    g.leftCorners nullable rules = .error (.dangling x) := by
  have hfold : ∀ known : Std.HashMap RuleId (Std.HashSet RuleId),
      rules.foldlM (fun corners y => return corners.insert y (← g.cornersOf nullable y)) known =
        Except.error (.dangling x) := by
    induction rules with
    | nil => cases hx
    | cons z rest ih =>
      intro known
      by_cases hz : g.contains z = true
      · rw [List.find?_cons_of_neg (by simp [hz])] at hx
        obtain ⟨found, hfound⟩ : ∃ found, g.cornersOf nullable z = .ok found :=
          cornersOf_ok hg.encloses hz
        rw [List.foldlM_cons, hfound]
        exact ih hx _
      · rw [List.find?_cons_of_pos (by simp [hz])] at hx
        cases hx
        have hnone : g.rule? x = none := by
          cases hrule : g.rule? x with
          | none => rfl
          | some found => exact absurd (contains_of_rule? hrule) hz
        rw [List.foldlM_cons, cornersOf, firstCalls, rule, hnone]
        rfl
  rw [leftCorners, hfold]
  rfl

/-- In a closed graph, for whatever rules are listed and whatever may be passed over: the analysis
of rules of the graph goes through, a rule could start with what paths of first calls lead to from a
listed one, it is left-recursive if such a path comes back to it, and two rules that could start
with each other are both. A listed number that belongs to no rule is reported. -/
theorem leftCorners_exact (hg : g.Closed) (nullable : Std.HashSet RuleId) (rules : List RuleId) :
    ((∀ x ∈ rules, g.contains x = true) → ∃ corners, g.leftCorners nullable rules = .ok corners ∧
      (∀ x y, corners.couldStartWith x y = true ↔ x ∈ rules ∧
      Relation.TransGen (g.BeginsWith (· ∈ nullable)) x y) ∧
      (∀ x, corners.isLeftRecursive x = true ↔ x ∈ rules ∧
      Relation.TransGen (g.BeginsWith (· ∈ nullable)) x x) ∧
      ∀ x y, corners.couldStartWith x y = true → corners.couldStartWith y x = true →
        corners.isLeftRecursive x = true ∧ corners.isLeftRecursive y = true) ∧
    ∀ x, rules.find? (!g.contains ·) = some x → g.leftCorners nullable rules = .error
      (.dangling x) := by
  refine ⟨fun hrules => ?_, fun x hx => leftCorners_dangling hg hx⟩
  obtain ⟨corners, hcorners⟩ : ∃ corners, g.leftCorners nullable rules = .ok corners :=
    leftCorners_ok hg.encloses hrules
  refine ⟨corners, hcorners, fun x y => couldStartWith_iff hcorners,
    fun x => couldStartWith_iff hcorners, fun x y hxy hyx => ?_⟩
  obtain ⟨hx, hto⟩ := (couldStartWith_iff hcorners).mp hxy
  obtain ⟨hy, hback⟩ := (couldStartWith_iff hcorners).mp hyx
  exact ⟨(couldStartWith_iff hcorners).mpr ⟨hx, hto.trans hback⟩,
    (couldStartWith_iff hcorners).mpr ⟨hy, hback.trans hto⟩⟩

/-- The sequence passes over its first rule only, so it begins with the choice, which leads back to
it, and not with what comes after that. The last listed rule applies itself, but not first. -/
theorem leftCorners_exact_of_cycle :
    let g : RuleGraph :=
  ⟨#[⟨"a", .sequence [⟨1⟩, ⟨2⟩, ⟨3⟩], {}⟩, ⟨"x?", .optional ⟨4⟩, {}⟩, ⟨"b", .choice [⟨0⟩, ⟨4⟩], {}⟩,
      ⟨"c", .sequence [⟨4⟩, ⟨3⟩], {}⟩, ⟨"x", .literal "x", {}⟩]⟩
    let nullable : Std.HashSet RuleId := (∅ : Std.HashSet RuleId).insert ⟨1⟩
    let rules : List RuleId := [⟨0⟩, ⟨2⟩, ⟨3⟩]
    g.Closed ∧ (∀ x ∈ rules, g.contains x = true) ∧
      (∃ corners, g.leftCorners nullable rules = .ok corners ∧
      (corners.isLeftRecursive ⟨0⟩ = true ∧ corners.isLeftRecursive ⟨2⟩ = true) ∧
      ¬ corners.couldStartWith ⟨0⟩ ⟨3⟩ = true ∧ ¬ corners.isLeftRecursive ⟨3⟩ = true) ∧
      g.leftCorners nullable [⟨0⟩, ⟨7⟩, ⟨5⟩] = .error (.dangling ⟨7⟩) := by
  intro g nullable rules
  have hclosed : g.Closed := by decide
  have hrules : ∀ x ∈ rules, g.contains x = true := by decide
  have hpass : ⟨1⟩ ∈ nullable := Std.HashSet.mem_insert_self
  have hab : g.BeginsWith (· ∈ nullable) ⟨0⟩ ⟨2⟩ :=
    ⟨_, rfl, [⟨1⟩], [⟨3⟩], rfl, List.forall_mem_singleton.mpr hpass⟩
  have hba : g.BeginsWith (· ∈ nullable) ⟨2⟩ ⟨0⟩ := ⟨_, rfl, List.mem_cons_self ..⟩
  -- No rule begins with the last one: in each sequence something in front of it may not be passed
  -- over.
  have hnever : ∀ x, ¬ g.BeginsWith (· ∈ nullable) x ⟨3⟩ := by
    rintro x ⟨found, hfound, hbegins⟩
    have hcalls : ∀ found ∈ g.rules.toList, ⟨3⟩ ∉ found.firstCalls nullable := by
      simp [g, nullable, Rule.firstCalls, uptoFirstNot, Std.HashSet.contains_insert]
    exact hcalls found (Array.mem_toList_iff.mpr (Array.mem_of_getElem? hfound))
      (Rule.mem_firstCalls_iff.mpr hbegins)
  obtain ⟨hexact, hdangling⟩ := leftCorners_exact hclosed nullable rules
  obtain ⟨corners, hcorners, hcould, hrec, hboth⟩ := hexact hrules
  have hto := (hcould ⟨0⟩ ⟨2⟩).mpr ⟨by decide, .single hab⟩
  have hback := (hcould ⟨2⟩ ⟨0⟩).mpr ⟨by decide, .single hba⟩
  have hnone : ∀ x, ¬ Relation.TransGen (g.BeginsWith (· ∈ nullable)) x ⟨3⟩ := fun x hpath => by
    obtain ⟨y, _, hlast⟩ := Relation.TransGen.tail'_iff.mp hpath
    exact hnever y hlast
  exact ⟨hclosed, hrules,
    ⟨corners, hcorners, hboth _ _ hto hback, fun h => hnone _ ((hcould _ _).mp h).2,
    fun h => hnone _ ((hrec _).mp h).2⟩,
    (leftCorners_exact hclosed nullable [⟨0⟩, ⟨7⟩, ⟨5⟩]).2 ⟨7⟩ rfl⟩

end RuleGraph

end Packrat
