import Packrat.Rules.Reach
import Packrat.Proofs.Rules.Resolved

/-! What a walk visits.

A walk that meets no number without a rule visits exactly the rules that the pending ones
lead to (`mem_walk`): nothing else, since only what comes next after a visited rule gets
pending, and all of it, since whatever is pending is visited at last unless it was
seen. Among rules that refer only to each other each walk goes on to its end (`Encloses.walk`). -/
namespace Packrat.RuleGraph

/-- One rule comes next after another in a walk. -/
def Leads (g : RuleGraph) (next : Rule → List RuleId) (x y : RuleId) : Prop :=
  ∃ found, g.rule? x = some found ∧ y ∈ next found

variable {g : RuleGraph} {next : Rule → List RuleId} {seen : Std.HashSet RuleId}
  {pending found : List RuleId}

/-- What a walk visits or meets is led to. -/
theorem walkFrom_led {x : RuleId}
    (hx : x ∈ (g.walkFrom next seen pending).visited ∨
      (g.walkFrom next seen pending).dangling = some x) :
    ∃ y ∈ pending, Relation.ReflTransGen (g.Leads next) y x := by
  fun_induction walkFrom g next seen pending with
  | case1 => rcases hx with hx | hx <;> cases hx
  | case2 seen id pending _ ih =>
    obtain ⟨y, hy, hled⟩ := ih hx
    exact ⟨y, List.mem_cons_of_mem _ hy, hled⟩
  | case3 seen id pending =>
    rcases hx with hx | hx <;> cases hx
    exact ⟨x, List.mem_cons_self .., .refl⟩
  | case4 seen id pending _ rule hrule rest ih =>
    have hrest : x = id ∨ x ∈ rest.visited ∨ rest.dangling = some x := by
      rw [← or_assoc, ← List.mem_cons]
      exact hx
    rcases hrest with rfl | hrest
    · exact ⟨x, List.mem_cons_self .., .refl⟩
    obtain ⟨y, hy, hled⟩ := ih hrest
    rcases List.mem_append.mp hy with hnext | hy
    · exact ⟨id, List.mem_cons_self .., .head ⟨rule, hrule, hnext⟩ hled⟩
    · exact ⟨y, List.mem_cons_of_mem _ hy, hled⟩

theorem walkFrom_dangling {x : RuleId} (hx : (g.walkFrom next seen pending).dangling = some x) :
    g.rule? x = none := by
  fun_induction walkFrom g next seen pending with
  | case1 => cases hx
  | case2 seen id pending _ ih => exact ih hx
  | case3 seen id pending _ hnone =>
    cases hx
    exact hnone
  | case4 seen id pending _ rule hrule rest ih => exact ih hx

/-- Rules of the graph that, but for those seen before, have among them what was pending and what
comes next after each. -/
structure Covers (g : RuleGraph) (next : Rule → List RuleId) (seen : Std.HashSet RuleId)
    (pending visited : List RuleId) : Prop where
  pending : ∀ x ∈ pending, x ∈ seen ∨ x ∈ visited
  next : ∀ x ∈ visited, ∃ rule, g.rule? x = some rule ∧ ∀ y ∈ next rule, y ∈ seen ∨ y ∈ visited

theorem Covers.visit {id : RuleId} {rule : Rule} {visited : List RuleId}
    (hrule : g.rule? id = some rule)
    (h : g.Covers next (seen.insert id) (next rule ++ pending) visited) :
    g.Covers next seen (id :: pending) (id :: visited) := by
  have hseen : ∀ y, y ∈ seen.insert id ∨ y ∈ visited → y ∈ seen ∨ y ∈ id :: visited := by
    rintro y (hy | hy)
    · rcases Std.HashSet.mem_insert.mp hy with hid | hy
      · exact .inr (List.mem_cons.mpr (.inl (eq_of_beq hid).symm))
      · exact .inl hy
    · exact .inr (List.mem_cons_of_mem _ hy)
  refine ⟨fun x hx => ?_, fun x hx => ?_⟩
  · rcases List.mem_cons.mp hx with rfl | hx
    · exact .inr (List.mem_cons_self ..)
    · exact hseen x (h.pending x (List.mem_append_right _ hx))
  · rcases List.mem_cons.mp hx with rfl | hx
    · exact ⟨rule, hrule, fun y hy => hseen y (h.pending y (List.mem_append_left _ hy))⟩
    · obtain ⟨rule', hrule', hnext⟩ := h.next x hx
      exact ⟨rule', hrule', fun y hy => hseen y (hnext y hy)⟩

theorem walkFrom_covers (hdangling : (g.walkFrom next seen pending).dangling = none) :
    g.Covers next seen pending (g.walkFrom next seen pending).visited := by
  fun_induction walkFrom g next seen pending with
  | case1 => exact ⟨nofun, nofun⟩
  | case2 seen id pending hseen ih =>
    have hcovers := ih hdangling
    refine ⟨fun x hx => ?_, hcovers.next⟩
    rcases List.mem_cons.mp hx with rfl | hx
    · exact .inl (Std.HashSet.mem_iff_contains.mpr hseen)
    · exact hcovers.pending x hx
  | case3 => cases hdangling
  | case4 seen id pending _ rule hrule rest ih => exact (ih hdangling).visit hrule

theorem all_eq_ok {w : Walk} (h : w.all = .ok found) : w.dangling = none ∧ found = w.visited := by
  rw [Walk.all] at h
  cases hdangling : w.dangling with
  | some x =>
    rw [hdangling] at h
    cases h
  | none =>
    rw [hdangling] at h
    cases h
    exact ⟨rfl, rfl⟩

theorem walk_covers (h : (g.walk next pending).all = .ok found) :
    g.Covers next ∅ pending found := by
  obtain ⟨hdangling, rfl⟩ := all_eq_ok h
  exact walkFrom_covers hdangling

/-- A walk that meets no number without a rule visits exactly what the pending rules lead to. -/
theorem mem_walk (h : (g.walk next pending).all = .ok found) (x : RuleId) :
    x ∈ found ↔ ∃ y ∈ pending, Relation.ReflTransGen (g.Leads next) y x := by
  have hcovers := walk_covers h
  have hvisited : ∀ y, y ∈ (∅ : Std.HashSet RuleId) ∨ y ∈ found → y ∈ found := fun y hy =>
    hy.resolve_left Std.HashSet.not_mem_empty
  refine ⟨fun hx => ?_, ?_⟩
  · obtain ⟨_, rfl⟩ := all_eq_ok h
    exact walkFrom_led (.inl hx)
  · rintro ⟨y, hy, hled⟩
    induction hled with
    | refl => exact hvisited y (hcovers.pending y hy)
    | tail _ hlast ih =>
      obtain ⟨rule, hrule, hnext⟩ := hlast
      obtain ⟨rule', hrule', hall⟩ := hcovers.next _ ih
      cases hrule.symm.trans hrule'
      exact hvisited _ (hall _ hnext)

/-! ### Walks that go on to their end -/

section
variable {P : RuleId → Prop} {roots : List RuleId}

/-- A walk among rules that refer only to each other visits no others, and meets no number without a
rule. -/
theorem Encloses.walk (h : g.Encloses P) (next : Rule → List RuleId)
    (hnext : ∀ rule, ∀ y ∈ next rule, y ∈ rule.body.children) (hpending : ∀ x ∈ pending, P x) :
    (g.walk next pending).dangling = none ∧ ∀ x ∈ (g.walk next pending).visited, P x := by
  have hrefers : g.Leads next ≤ g.Refers :=
    fun _ _ ⟨rule, hrule, hy⟩ => ⟨rule, hrule, hnext rule _ hy⟩
  have hled : ∀ x y, P y → Relation.ReflTransGen (g.Leads next) y x → P x := fun x y hy hyx =>
    h.leadsTo hy (Relation.ReflTransGen.mono hrefers y x hyx)
  constructor
  · cases hdangling : (g.walk next pending).dangling with
    | none => rfl
    | some x =>
      obtain ⟨y, hy, hyx⟩ := walkFrom_led (.inr hdangling)
      obtain ⟨found, hfound, _⟩ := h x (hled x y (hpending y hy) hyx)
      rw [walkFrom_dangling hdangling] at hfound
      cases hfound
  · intro x hx
    obtain ⟨y, hy, hyx⟩ := walkFrom_led (.inl hx)
    exact hled x y (hpending y hy) hyx

variable (h : g.Resolved P)
include h

/-- What resolved roots lead to is listed, and is resolved. -/
theorem Resolved.reachable (hroots : ∀ x ∈ roots, P x) :
    ∃ found, g.reachable roots = .ok found ∧ g.Resolved (· ∈ found) ∧ ∀ x ∈ roots, x ∈ found := by
  have hwalk := (h.encloses.walk (·.body.children) (fun _ _ hy => hy) hroots).1
  have hfound : g.reachable roots = .ok (g.walk (·.body.children) roots).visited := by
    rw [RuleGraph.reachable, Walk.all, hwalk]
  refine ⟨_, hfound, fun x hx => ?_, fun x hx => (mem_walk hfound x).mpr ⟨x, hx, .refl⟩⟩
  obtain ⟨y, hy, hled⟩ := (mem_walk hfound x).mp hx
  obtain ⟨rule, hrule, hplain, _⟩ := h x (h.leadsTo (hroots y hy) hled)
  exact ⟨rule, hrule, hplain,
    fun z hz => (mem_walk hfound z).mpr ⟨y, hy, hled.tail ⟨rule, hrule, hz⟩⟩⟩

/-- Resolved roots lead to no placeholder. -/
theorem Resolved.hasReference (hroots : ∀ x ∈ roots, P x) : g.hasReference roots = .ok false := by
  have hpending : ∀ x ∈ roots.reverse, P x := fun x hx => hroots x (List.mem_reverse.mp hx)
  obtain ⟨hdangling, hvisited⟩ :=
    h.encloses.walk (·.body.children.reverse) (fun _ _ hy => List.mem_reverse.mp hy) hpending
  have hplain : ¬ (g.walk (·.body.children.reverse) roots.reverse).visited.any g.isReference =
      true := by
    rw [List.any_eq_true]
    rintro ⟨x, hx, href⟩
    obtain ⟨found, hfound, hplain, _⟩ := h x (hvisited x hx)
    rw [isReference, hfound, Option.any_some, hplain] at href
    cases href
  rw [RuleGraph.hasReference, if_neg hplain, Walk.all, hdangling]
  rfl

end

end Packrat.RuleGraph
