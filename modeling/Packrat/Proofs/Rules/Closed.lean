import Packrat.Rules.Basic
import Mathlib.Logic.Relation

/-! Graphs whose rules refer to rules of the graph only.

A number that a rule refers to need not belong to a rule. `RuleGraph.ClosedFrom` says that
it does wherever one gets to from a given rule; this is all that an application of
the rule needs to come to an end. `RuleGraph.PlainFrom` says that no placeholder is met. -/
namespace Packrat.RuleGraph

/-- The body of a rule refers to another rule. -/
def Refers (g : RuleGraph) (x y : RuleId) : Prop :=
  ∃ found, g.rule? x = some found ∧ y ∈ found.body.children

/-- Whatever a rule leads to refers to rules of the graph only. -/
def ClosedFrom (g : RuleGraph) (x : RuleId) : Prop :=
  ∀ y z, Relation.ReflTransGen g.Refers x y → g.Refers y z → g.contains z = true

/-- No rule refers to a number that belongs to no rule. -/
def Closed (g : RuleGraph) : Prop :=
  ∀ found ∈ g.rules.toList, ∀ y ∈ found.body.children, g.contains y = true

instance (g : RuleGraph) : Decidable g.Closed := inferInstanceAs (Decidable (∀ _ ∈ _, ∀ _ ∈ _, _))

/-- Whatever a rule leads to is no placeholder. -/
def PlainFrom (g : RuleGraph) (x : RuleId) : Prop :=
  ∀ y found, Relation.ReflTransGen g.Refers x y → g.rule? y = some found →
    found.body.isReference = false

theorem ClosedFrom.refers {g : RuleGraph} {x y : RuleId} (h : g.ClosedFrom x)
    (hxy : g.Refers x y) : g.ClosedFrom y :=
  fun z w hz hw => h z w (.head hxy hz) hw

theorem PlainFrom.refers {g : RuleGraph} {x y : RuleId} (h : g.PlainFrom x)
    (hxy : g.Refers x y) : g.PlainFrom y :=
  fun z found hz hfound => h z found (.head hxy hz) hfound

theorem Closed.closedFrom {g : RuleGraph} (h : g.Closed) (x : RuleId) : g.ClosedFrom x := by
  rintro y z _ ⟨found, hfound, hz⟩
  exact h found (Array.mem_toList_iff.mpr (Array.mem_of_getElem? hfound)) z hz

variable {g : RuleGraph} {x : RuleId}

theorem contains_of_rule? {found : Rule} (h : g.rule? x = some found) : g.contains x = true :=
  decide_eq_true (Array.getElem?_eq_some_iff.mp h).1

theorem rule?_of_contains (h : g.contains x = true) : ∃ found, g.rule? x = some found :=
  ⟨_, Array.getElem?_eq_getElem (of_decide_eq_true h)⟩

theorem contains_of_refers {y : RuleId} (hg : g.Closed) (hxy : g.Refers x y) :
    g.contains y = true :=
  hg.closedFrom x x y .refl hxy

theorem mem_ids (hx : g.contains x = true) : x ∈ g.ids :=
  List.mem_map.mpr ⟨x.index, List.mem_range.mpr (of_decide_eq_true hx), rfl⟩

theorem length_ids : g.ids.length = g.size := by
  simp [ids]

theorem rule_eq_ok {found : Rule} : g.rule x = .ok found ↔ g.rule? x = some found := by
  rw [rule]
  cases g.rule? x with
  | none => exact ⟨nofun, nofun⟩
  | some _ =>
    exact ⟨fun h => congrArg some (Except.ok.inj h),
      fun h => congrArg Except.ok (Option.some.inj h)⟩

theorem rule?_of_rule_error {e : RuleError} (h : g.rule x = .error e) : g.rule? x = none := by
  cases hfound : g.rule? x with
  | none => rfl
  | some found =>
    rw [rule_eq_ok.mpr hfound] at h
    cases h

theorem rule_ok (hx : g.contains x = true) : ∃ found, g.rule x = .ok found := by
  obtain ⟨found, hfound⟩ := rule?_of_contains hx
  exact ⟨found, rule_eq_ok.mpr hfound⟩

/-- One computation after the other goes through if each does. -/
theorem exists_ok_bind {α β : Type} {c : Except RuleError α} {f : α → Except RuleError β}
    (hc : ∃ a, c = .ok a) (hf : ∀ a, c = .ok a → ∃ b, f a = .ok b) : ∃ b, (c >>= f) = .ok b := by
  obtain ⟨a, rfl⟩ := hc
  exact hf a rfl

theorem joinNames_ok (separator : String) {rules : List RuleId}
    (hrules : ∀ y ∈ rules, g.contains y = true) :
    ∃ text, g.joinNames separator rules = .ok text := by
  have hnames : ∃ names, rules.mapM (fun y => Rule.name <$> g.rule y) = .ok names := by
    induction rules with
    | nil => exact ⟨[], rfl⟩
    | cons y rest ih =>
      obtain ⟨found, hy⟩ := rule_ok (hrules y (List.mem_cons_self ..))
      obtain ⟨names, hrest⟩ := ih fun z hz => hrules z (List.mem_cons_of_mem _ hz)
      exact ⟨found.name :: names, by rw [List.mapM_cons, hy, hrest]; rfl⟩
  exact exists_ok_bind hnames fun names _ => ⟨separator.intercalate names, rfl⟩

/-- A rule can be displayed if it is there and so is what it refers to. -/
theorem display_ok {found : Rule} (hfound : g.rule? x = some found)
    (hchildren : ∀ y ∈ found.body.children, g.contains y = true) :
    ∃ text, g.display x = .ok text := by
  refine exists_ok_bind ⟨found, rule_eq_ok.mpr hfound⟩ fun displayed hdisplayed => ?_
  obtain rfl := Option.some.inj (hfound.symm.trans (rule_eq_ok.mp hdisplayed))
  cases hb : found.body with
  | sequence rules | choice rules =>
    rw [hb] at hchildren
    exact exists_ok_bind (joinNames_ok _ hchildren) fun names _ => ⟨_, rfl⟩
  | optional y | repetition y =>
    rw [hb] at hchildren
    exact exists_ok_bind (rule_ok (hchildren y (List.mem_singleton_self y))) fun child _ => ⟨_, rfl⟩
  | reference target =>
    cases target with
    | none => exact ⟨_, rfl⟩
    | some y =>
      rw [hb] at hchildren
      exact exists_ok_bind (rule_ok (hchildren y (List.mem_singleton_self y)))
        fun child _ => ⟨_, rfl⟩
  | literal _ | pattern _ | epsilon | endOfInput => exact ⟨_, rfl⟩

end Packrat.RuleGraph
