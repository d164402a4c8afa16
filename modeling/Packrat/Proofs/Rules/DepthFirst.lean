import Packrat.Proofs.Rules.Walk
import Mathlib.Data.Finset.Card

/-! The order of a walk.

A walk visits rules in the order of the recursive traversal (`RuleGraph.depthFirst`), which takes a
rule if it was not taken before and then, one after the other, what comes next after it. The pending
rules of the walk are what the traversal has still to go through on all levels of its recursion
(`walkFrom_eq_depthFirst`). A rule may be pending several times, and the first time counts. -/
namespace Packrat.RuleGraph
variable {g : RuleGraph} {next : Rule → List RuleId}
  {visited visited' pending roots found : List RuleId} {x : RuleId} {m n : Nat}

/-- The recursive traversal from a rule, at most so many levels deep: the rules visited before, and
then those that are new, each before what comes next after it, from left to right. -/
def depthFirst (g : RuleGraph) (next : Rule → List RuleId) :
    Nat → List RuleId → RuleId → List RuleId
  | 0, visited, _ => visited
  | n + 1, visited, x =>
    if x ∈ visited then visited
    else
      match g.rule? x with
      | none => visited
      | some rule => (next rule).foldl (g.depthFirst next n) (visited ++ [x])

theorem depthFirst_of_mem (hx : x ∈ visited) : g.depthFirst next n visited x = visited := by
  cases n with
  | zero => rfl
  | succ n => rw [depthFirst, if_pos hx]

theorem depthFirst_of_none (hrule : g.rule? x = none) :
    g.depthFirst next n visited x = visited := by
  cases n with
  | zero => rfl
  | succ n => simp only [depthFirst, hrule, ite_self]

theorem depthFirst_visit {rule : Rule} (hrule : g.rule? x = some rule) (hnew : x ∉ visited) :
    g.depthFirst next (n + 1) visited x = (next rule).foldl (g.depthFirst next n)
      (visited ++ [x]) := by
  rw [depthFirst, if_neg hnew, hrule]

/-! ### What the traversal keeps -/

theorem foldl_keeps {motive : List RuleId → Prop} {step : List RuleId → RuleId → List RuleId}
    (hstep : ∀ v y, motive v → motive (step v y)) (ys : List RuleId) (h : motive visited) :
    motive (ys.foldl step visited) := by
  induction ys generalizing visited with
  | nil => exact h
  | cons y rest ih => exact ih (hstep visited y h)

/-- What holds of the rules visited so far holds to the end if every new rule keeps it. -/
theorem depthFirst_keeps {motive : List RuleId → Prop}
    (hvisit : ∀ v y, y ∉ v → motive v → motive (v ++ [y])) (h : motive visited) :
    motive (g.depthFirst next n visited x) := by
  induction n generalizing visited x with
  | zero => exact h
  | succ n ih =>
    by_cases hx : x ∈ visited
    · rw [depthFirst_of_mem hx]
      exact h
    cases hrule : g.rule? x with
    | none =>
      rw [depthFirst_of_none hrule]
      exact h
    | some rule =>
      rw [depthFirst_visit hrule hx]
      exact foldl_keeps (fun v y hv => ih hv) _ (hvisit visited x hx h)

theorem subset_depthFirst : visited ⊆ g.depthFirst next n visited x :=
  depthFirst_keeps (motive := (visited ⊆ ·)) (fun _ _ _ h => List.subset_append_of_subset_left _ h)
    (List.Subset.refl _)

/-- No rule is visited twice. -/
theorem nodup_depthFirst (g : RuleGraph) (next : Rule → List RuleId) (n : Nat)
    (roots : List RuleId) : (roots.foldl (g.depthFirst next n) []).Nodup := by
  refine foldl_keeps (motive := List.Nodup) (fun _ _ => depthFirst_keeps fun v y hnew h => ?_)
    roots List.nodup_nil
  rw [← List.concat_eq_append]
  exact h.concat hnew

/-! ### How deep it goes -/

/-- How many rules of the graph are not visited. Each level of the traversal visits another one. -/
def unvisited (g : RuleGraph) (visited : List RuleId) : Nat :=
  (g.ids.toFinset \ visited.toFinset).card

theorem unvisited_le_size (g : RuleGraph) (visited : List RuleId) : g.unvisited visited ≤ g.size :=
  calc g.unvisited visited ≤ g.ids.toFinset.card := Finset.card_le_card Finset.sdiff_subset
    _ ≤ g.ids.length := List.toFinset_card_le _
    _ = g.size := length_ids

theorem unvisited_mono (h : visited ⊆ visited') : g.unvisited visited' ≤ g.unvisited visited :=
  Finset.card_le_card (Finset.sdiff_subset_sdiff (Finset.Subset.refl _) fun _ hx =>
    List.mem_toFinset.mpr (h (List.mem_toFinset.mp hx)))

theorem unvisited_visit (hx : g.contains x = true) (hnew : x ∉ visited) :
    g.unvisited (visited ++ [x]) < g.unvisited visited := by
  have hinsert : (visited ++ [x]).toFinset = insert x visited.toFinset := by
    rw [List.toFinset_append, Finset.union_comm, Finset.insert_eq]
    rfl
  rw [unvisited, hinsert, Finset.sdiff_insert]
  refine Finset.card_erase_lt_of_mem (Finset.mem_sdiff.mpr ⟨List.mem_toFinset.mpr (mem_ids hx), ?_⟩)
  rwa [List.mem_toFinset]

theorem foldl_deeper
    (hstep : ∀ v y, g.unvisited v ≤ n → g.depthFirst next m v y = g.depthFirst next n v y)
    (hn : g.unvisited visited ≤ n) (ys : List RuleId) :
    ys.foldl (g.depthFirst next m) visited = ys.foldl (g.depthFirst next n) visited := by
  induction ys generalizing visited with
  | nil => rfl
  | cons y rest ih =>
    rw [List.foldl_cons, List.foldl_cons, hstep visited y hn,
      ih ((unvisited_mono subset_depthFirst).trans hn)]

/-- As many levels as there are rules to visit are deep enough. -/
theorem depthFirst_succ (hn : g.unvisited visited ≤ n) :
    g.depthFirst next (n + 1) visited x = g.depthFirst next n visited x := by
  induction n generalizing visited x with
  | zero =>
    by_cases hx : x ∈ visited
    · rw [depthFirst_of_mem hx, depthFirst_of_mem hx]
    cases hrule : g.rule? x with
    | none => rw [depthFirst_of_none hrule, depthFirst_of_none hrule]
    | some rule => exact absurd (unvisited_visit (contains_of_rule? hrule) hx) (by omega)
  | succ n ih =>
    by_cases hx : x ∈ visited
    · rw [depthFirst_of_mem hx, depthFirst_of_mem hx]
    cases hrule : g.rule? x with
    | none => rw [depthFirst_of_none hrule, depthFirst_of_none hrule]
    | some rule =>
      have hvisit := unvisited_visit (contains_of_rule? hrule) hx
      rw [depthFirst_visit hrule hx, depthFirst_visit hrule hx,
        foldl_deeper (fun v y hv => ih hv) (by omega)]

/-- Deeper levels visit nothing else. -/
theorem foldl_depthFirst_of_le (hn : g.unvisited visited ≤ n) (hmn : n ≤ m) (ys : List RuleId) :
    ys.foldl (g.depthFirst next m) visited = ys.foldl (g.depthFirst next n) visited := by
  induction m, hmn using Nat.le_induction with
  | base => rfl
  | succ m hmn ih => rw [foldl_deeper (fun v y hv => depthFirst_succ hv) (hn.trans hmn), ih]

/-! ### The walk -/

/-- A walk that meets no number without a rule goes through the pending rules as the traversal
does. -/
theorem walkFrom_eq_depthFirst {seen : Std.HashSet RuleId}
    (hseen : ∀ x, seen.contains x = true ↔ x ∈ visited) (hn : g.unvisited visited ≤ n)
    (hdangling : (g.walkFrom next seen pending).dangling = none) :
    visited ++ (g.walkFrom next seen pending).visited = pending.foldl
      (g.depthFirst next n) visited := by
  fun_induction walkFrom g next seen pending generalizing visited n with
  | case1 => exact List.append_nil _
  | case2 seen id pending hid ih =>
    rw [List.foldl_cons, depthFirst_of_mem ((hseen id).mp hid)]
    exact ih hseen hn hdangling
  | case3 => cases hdangling
  | @case4 seen id pending hid rule hrule rest ih =>
    have hnew : id ∉ visited := fun hmem => hid ((hseen id).mpr hmem)
    have hvisit := unvisited_visit (contains_of_rule? hrule) hnew
    obtain ⟨n, rfl⟩ : ∃ k, n = k + 1 := Nat.exists_eq_succ_of_ne_zero (by omega)
    have hseen' : ∀ x, (seen.insert id).contains x = true ↔ x ∈ visited ++ [id] := by
      intro x
      rw [Std.HashSet.contains_insert, Bool.or_eq_true, hseen, beq_iff_eq, List.mem_append,
        List.mem_singleton, or_comm, eq_comm]
    -- What comes next after `id` stands in front of what was pending: the traversal's deeper level
    -- comes first.
    have hlevel := ih hseen' (Nat.le_of_lt_succ (Nat.lt_of_lt_of_le hvisit hn)) hdangling
    rw [List.append_assoc, List.singleton_append, List.foldl_append] at hlevel
    rw [hlevel, List.foldl_cons, depthFirst_visit hrule hnew]
    refine (foldl_depthFirst_of_le ?_ (Nat.le_succ n) pending).symm
    have hsubset : visited ++ [id] ⊆ (next rule).foldl (g.depthFirst next n) (visited ++ [id]) :=
      foldl_keeps (motive := (visited ++ [id] ⊆ ·))
      (fun v y hv => List.Subset.trans hv subset_depthFirst) _ (List.Subset.refl _)
    exact (unvisited_mono hsubset).trans (by omega)

/-- From right to left a rule leads to the same ones. -/
theorem leads_reverse (g : RuleGraph) (next : Rule → List RuleId) :
    g.Leads (fun rule => (next rule).reverse) = g.Leads next :=
  funext fun x => funext fun y => by simp only [Leads, List.mem_reverse]

section
variable (hg : g.Closed) (hroots : ∀ x ∈ roots, g.contains x = true)
include hg hroots

theorem reachable_eq_depthFirst (hn : g.size ≤ n) :
    g.reachable roots = .ok (roots.foldl (g.depthFirst (·.body.children) n) []) := by
  have hdangling := (hg.encloses.walk (·.body.children) (fun _ _ hy => hy) hroots).1
  have hempty : ∀ x, (∅ : Std.HashSet RuleId).contains x = true ↔ x ∈ ([] : List RuleId) := by simp
  have horder := walkFrom_eq_depthFirst hempty ((g.unvisited_le_size []).trans hn) hdangling
  rw [reachable, Walk.all, hdangling, ← horder, List.nil_append]
  rfl

/-- The rules that the roots lead to have a placeholder among them or not, from whichever side one
looks. -/
theorem hasReference_of_reachable (hfound : g.reachable roots = .ok found) :
    g.hasReference roots = .ok (found.any g.isReference) := by
  have hdangling :=
    (hg.encloses.walk (·.body.children.reverse) (fun _ _ hy => List.mem_reverse.mp hy)
    fun x hx => hroots x (List.mem_reverse.mp hx)).1
  have hall : (g.walk (·.body.children.reverse) roots.reverse).all =
      .ok (g.walk (·.body.children.reverse) roots.reverse).visited := by rw [Walk.all, hdangling]
  have hmem : ∀ x, x ∈ (g.walk (·.body.children.reverse) roots.reverse).visited ↔ x ∈ found := by
    intro x
    rw [mem_walk hall, mem_walk hfound, leads_reverse g (·.body.children)]
    simp only [List.mem_reverse]
  have hany : (g.walk (·.body.children.reverse) roots.reverse).visited.any g.isReference =
      found.any g.isReference := by
    rw [Bool.eq_iff_iff, List.any_eq_true, List.any_eq_true]
    exact exists_congr fun x => and_congr_left fun _ => hmem x
  rw [hasReference, hall, hany]
  cases found.any g.isReference <;> rfl

/-- What rules that are all there lead to is listed as a whole, each rule once, in the order of the
recursive traversal from left to right; and a placeholder is found exactly if one is listed. The
traversal goes no deeper than there are rules. -/
theorem reachable_depthFirst : ∃ found, g.reachable roots = .ok found ∧
    (∀ x, x ∈ found ↔ ∃ y ∈ roots, Relation.ReflTransGen g.Refers y x) ∧ found.Nodup ∧
    (∀ n, g.size ≤ n → roots.foldl (g.depthFirst (·.body.children) n) [] = found) ∧
    g.hasReference roots = .ok (found.any g.isReference) := by
  have hfound := reachable_eq_depthFirst hg hroots le_rfl
  refine ⟨_, hfound, fun x => mem_walk hfound x, nodup_depthFirst .., fun n hn => ?_, ?_⟩
  · exact Except.ok.inj ((reachable_eq_depthFirst hg hroots hn).symm.trans hfound)
  · exact hasReference_of_reachable hg hroots hfound

end

/-- Rule 3 is next after rule 0 and after rule 1, and is visited below rule 1. It is a placeholder
for rule 0, which the roots name twice. -/
theorem reachable_depthFirst_shared :
    let g : RuleGraph :=
  ⟨#[⟨"a", .choice [⟨1⟩, ⟨2⟩, ⟨3⟩], {}⟩, ⟨"b", .sequence [⟨3⟩, ⟨1⟩], {}⟩, ⟨"c", .optional ⟨1⟩, {}⟩,
      ⟨"d", .reference (some ⟨0⟩), {}⟩, ⟨"e", .repetition ⟨2⟩, {}⟩]⟩
    g.Closed ∧ (∀ x ∈ [⟨0⟩, ⟨2⟩, ⟨0⟩], g.contains x = true) ∧
      g.reachable [⟨0⟩, ⟨2⟩, ⟨0⟩] = .ok [⟨0⟩, ⟨1⟩, ⟨3⟩, ⟨2⟩] ∧
      g.hasReference [⟨0⟩, ⟨2⟩, ⟨0⟩] = .ok true := by
  intro g
  have hg : g.Closed := by decide
  have hroots : ∀ x ∈ [⟨0⟩, ⟨2⟩, ⟨0⟩], g.contains x = true := by decide
  obtain ⟨found, hfound, _, _, horder, href⟩ := reachable_depthFirst hg hroots
  have hlist : found = [⟨0⟩, ⟨1⟩, ⟨3⟩, ⟨2⟩] := (horder 5 (by decide)).symm.trans (by decide)
  subst hlist
  exact ⟨hg, hroots, hfound, href⟩

end Packrat.RuleGraph
